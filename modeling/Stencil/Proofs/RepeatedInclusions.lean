import Stencil.Proofs.Faults
import Stencil.Proofs.PropLookups

/-!
# What a repeated inclusion stands for

A repeated inclusion renders like a sequence of single ones, one for each element of its array, in
which the element stands under the id of the array. This holds as long as no argument refers to that
id, since the arguments of a repeated inclusion see the whole array.
-/

namespace Stencil

section Except

variable {α β ε : Type} {f g : α → Except ε β}

theorem mapM_congr {xs : List α} (h : ∀ x ∈ xs, f x = g x) : xs.mapM f = xs.mapM g := by
  induction xs with
  | nil => rfl
  | cons x rest ih =>
      obtain ⟨hx, hrest⟩ := List.forall_mem_cons.1 h
      rw [List.mapM_cons, List.mapM_cons, hx, ih hrest]

/-- A first step that all steps of a sequence share may be taken once, if there are any. -/
theorem mapM_range_bind {x : Except ε α} {step : α → Nat → Except ε β} {n : Nat} (hn : n ≠ 0) :
    ((List.range n).mapM fun k => x >>= fun a => step a k) =
      x >>= fun a => (List.range n).mapM (step a) := by
  obtain ⟨m, rfl⟩ := Nat.exists_eq_succ_of_ne_zero hn
  cases x with
  | error e =>
      rw [List.range_succ_eq_map, List.mapM_cons]
      rfl
  | ok a => rfl

end Except

/-- The props of one single inclusion of the sequence. Under the id stands the element, with its
index unless it has a value of its own there, and all other props are as they were. -/
structure ElementScope (props : Json.Fields) (id : String) (fields : Json.Fields) (index : Nat)
    (scope : Json.Fields) : Prop where
  element : ∃ entered, scope.lookup id = some (.object entered) ∧
    entered.lookup "i" = some ((fields.lookup "i").getD (.nat index)) ∧
    ∀ key ≠ "i", entered.lookup key = fields.lookup key
  others : ∀ key ≠ id, scope.lookup key = props.lookup key

namespace Render

variable {registry : Registry} {levels index : Nat} {props fields scope : Json.Fields}
variable {forwarded attributes : Attributes} {inclusion : Inclusion} {objects : List Json.Fields}

theorem lookup_indexed_index (fields : Json.Fields) (index : Nat) :
    (indexed fields index).lookup "i" = some ((fields.lookup "i").getD (.nat index)) := by
  unfold indexed
  split
  case isTrue own =>
    obtain ⟨v, hv⟩ := Option.isSome_iff_exists.1 own
    have hv : fields.lookup "i" = some v := hv
    rw [hv, Option.getD_some]
  case isFalse free =>
    have hnone : fields.lookup "i" = none := Option.not_isSome_iff_eq_none.1 free
    rw [hnone, Option.getD_none]
    exact List.lookup_cons_self

theorem lookup_indexed_of_ne (fields : Json.Fields) (index : Nat) {key : String}
    (hkey : key ≠ "i") : (indexed fields index).lookup key = fields.lookup key := by
  unfold indexed
  split
  · rfl
  · exact (Dictionary.lookup_cons_ite _ _ _ _).trans (if_neg hkey)

/-- There are props for every element. -/
theorem elementScope_cons (props : Json.Fields) (id : String) (fields : Json.Fields)
    (index : Nat) :
    ElementScope props id fields index ((id, .object (indexed fields index)) :: props) where
  element := by
    refine ⟨indexed fields index, List.lookup_cons_self, lookup_indexed_index fields index, ?_⟩
    intro key hkey
    exact lookup_indexed_of_ne fields index hkey
  others key hkey := by rw [Dictionary.lookup_cons_ite, if_neg hkey]

/-- The single inclusion of an element enters the component with what the repeated one hands it. -/
theorem single_of_elementScope (unreferenced : inclusion.id ∉ inclusion.references)
    (hscope : ElementScope props inclusion.id fields index scope) :
    tokenText registry (below? registry levels) scope forwarded (.single inclusion) = (do
      let child ← resolve registry (below? registry levels) inclusion.name
      let attributes ← evaluateArguments inclusion.arguments props forwarded
      inclusionText inclusion child (indexed fields index) attributes) := by
  obtain ⟨entered, hentered, hindex, hkeys⟩ := hscope.element
  have harguments : evaluateArguments inclusion.arguments scope forwarded =
      evaluateArguments inclusion.arguments props forwarded := by
    apply evaluateArguments_congr
    intro x hx
    apply hscope.others
    rintro rfl
    exact unreferenced hx
  have hprops : singleProps scope inclusion.id = entered := by rw [singleProps, hentered]
  have hsame : ∀ key, entered.lookup key = (indexed fields index).lookup key := by
    intro key
    by_cases hkey : key = "i"
    · rw [hkey, hindex, lookup_indexed_index]
    · rw [hkeys key hkey, lookup_indexed_of_ne fields index hkey]
  rw [tokenText, harguments, hprops]
  cases hchild : resolve registry (below? registry levels) inclusion.name with
  | error e => rfl
  | ok child =>
      obtain ⟨n, component, _, _, rfl⟩ := resolve_below?_eq_ok hchild
      cases evaluateArguments inclusion.arguments props forwarded with
      | error e => rfl
      | ok attributes =>
          change inclusionText inclusion _ entered attributes =
            inclusionText inclusion _ _ attributes
          rw [inclusionText, inclusionText, within_congr hsame]

/-- The elements are rendered one by one, each with its index. -/
theorem elementTexts_eq_mapM (inclusion : Inclusion) (child : Included) (attributes : Attributes)
    (index : Nat) (objects : List Json.Fields) :
    elementTexts inclusion child attributes index objects =
      (List.range' index objects.length).mapM fun k =>
        inclusionText inclusion child (indexed (objects[k - index]?.getD []) k) attributes := by
  induction objects generalizing index with
  | nil => rfl
  | cons fields rest ih =>
      have hrest : ((List.range' (index + 1) rest.length).mapM fun k =>
            inclusionText inclusion child (indexed ((fields :: rest)[k - index]?.getD []) k)
              attributes) =
          elementTexts inclusion child attributes (index + 1) rest := by
        rw [ih]
        apply mapM_congr
        intro k hk
        have hlt : index < k := (List.mem_range'_1.1 hk).1
        have hsub : k - index = k - (index + 1) + 1 := by omega
        rw [hsub, List.getElem?_cons_succ]
      rw [elementTexts, List.length_cons, List.range'_succ, List.mapM_cons, hrest, Nat.sub_self]
      rfl

/-- The single inclusions of the elements one after the other look for the component and evaluate
the arguments once for all. -/
theorem mapM_single_of_elementScope (unreferenced : inclusion.id ∉ inclusion.references)
    (hne : objects ≠ []) {scope : Nat → Json.Fields}
    (hscope : ∀ k fields, objects[k]? = some fields →
      ElementScope props inclusion.id fields k (scope k)) :
    ((List.range objects.length).mapM fun k =>
        tokenText registry (below? registry levels) (scope k) forwarded (.single inclusion)) =
      (do
        let child ← resolve registry (below? registry levels) inclusion.name
        let attributes ← evaluateArguments inclusion.arguments props forwarded
        elementTexts inclusion child attributes 0 objects) := by
  have hlength : objects.length ≠ 0 := fun h => hne (List.eq_nil_of_length_eq_zero h)
  calc
    _ = (List.range objects.length).mapM fun k =>
          resolve registry (below? registry levels) inclusion.name >>= fun child =>
            evaluateArguments inclusion.arguments props forwarded >>= fun attributes =>
              inclusionText inclusion child (indexed (objects[k]?.getD []) k) attributes := by
      apply mapM_congr
      intro k hk
      have hfields := List.getElem?_eq_getElem (List.mem_range.1 hk)
      rw [single_of_elementScope unreferenced (hscope k _ hfields), hfields]
      rfl
    _ = resolve registry (below? registry levels) inclusion.name >>= fun child =>
          (List.range objects.length).mapM fun k =>
            evaluateArguments inclusion.arguments props forwarded >>= fun attributes =>
              inclusionText inclusion child (indexed (objects[k]?.getD []) k) attributes :=
      mapM_range_bind hlength
    _ = resolve registry (below? registry levels) inclusion.name >>= fun child =>
          evaluateArguments inclusion.arguments props forwarded >>= fun attributes =>
            (List.range objects.length).mapM fun k =>
              inclusionText inclusion child (indexed (objects[k]?.getD []) k) attributes :=
      congrArg _ (funext fun child => mapM_range_bind hlength)
    _ = _ := by simp only [elementTexts_eq_mapM, List.range_eq_range', Nat.sub_zero]

/-- A repeated inclusion whose arguments do not refer to its id gives what the single inclusions of
its elements give one after the other, with line breaks between the texts, or the first error among
theirs. For an array without elements it gives no text, unless its component is not found within the
limit or its arguments fail. -/
theorem repeated_eq_singles
    (array : props.lookup inclusion.id = some (.array (objects.map .object)))
    (unreferenced : inclusion.id ∉ inclusion.references) :
    (objects ≠ [] → ∀ scope : Nat → Json.Fields,
      (∀ k fields, objects[k]? = some fields →
        ElementScope props inclusion.id fields k (scope k)) →
      tokenText registry (below? registry levels) props forwarded (.repeated inclusion) =
        ("\n".intercalate ·) <$> (List.range objects.length).mapM fun k =>
          tokenText registry (below? registry levels) (scope k) forwarded (.single inclusion)) ∧
    (objects = [] →
      (∀ e, resolve registry (below? registry levels) inclusion.name = .error e →
        tokenText registry (below? registry levels) props forwarded (.repeated inclusion) =
          .error e) ∧
      ∀ child, resolve registry (below? registry levels) inclusion.name = .ok child →
        (∀ e, evaluateArguments inclusion.arguments props forwarded = .error e →
          tokenText registry (below? registry levels) props forwarded (.repeated inclusion) =
            .error e) ∧
        ∀ attributes, evaluateArguments inclusion.arguments props forwarded = .ok attributes →
          tokenText registry (below? registry levels) props forwarded (.repeated inclusion) =
            .ok "") := by
  have helements : elements props inclusion.id = .ok objects := elements_eq_ok.2 array
  constructor
  · intro hne scope hscope
    rw [mapM_single_of_elementScope unreferenced hne hscope, tokenText, helements]
    cases resolve registry (below? registry levels) inclusion.name with
    | error e => rfl
    | ok child => cases evaluateArguments inclusion.arguments props forwarded <;> rfl
  · rintro rfl
    rw [tokenText, helements]
    constructor
    · intro e hchild
      rw [hchild]
      rfl
    · intro child hchild
      rw [hchild]
      constructor
      · intro e harguments
        rw [harguments]
        rfl
      · intro attributes harguments
        rw [harguments]
        rfl

/-- A list item that shows its index. -/
def numbered : Registry := Registry.empty.register "item" "<li $*>$\x7bi\x7d: $\x7bt\x7d</li>"

/-- Items of a class that the including component knows. -/
def numberedItems : Inclusion := ⟨"item", "items", [.named "class" [.prop "kind"]]⟩

/-- Two items, of which the second has a value of its own for its index. -/
def twoItems : List Json.Fields := [[("t", .string "a")], [("t", .string "b"), ("i", .string "x")]]

def itemProps (objects : List Json.Fields) : Json.Fields :=
  [("kind", .string "row"), ("items", .array (objects.map .object))]

def itemScope (k : Nat) : Json.Fields :=
  ("items", .object (indexed (twoItems[k]?.getD []) k)) :: itemProps twoItems

/-- An index of its own goes before the number of the element. Without elements, the limit still
counts. -/
theorem repeated_eq_singles_numbered :
    (tokenText numbered (below? numbered 1) (itemProps twoItems) .empty (.repeated numberedItems) =
        ("\n".intercalate ·) <$> (List.range 2).mapM fun k =>
          tokenText numbered (below? numbered 1) (itemScope k) .empty (.single numberedItems)) ∧
      tokenText numbered (below? numbered 1) (itemProps twoItems) .empty (.repeated numberedItems) =
        .ok "<li class=\"row\">0: a</li>\n<li class=\"row\">x: b</li>" ∧
      tokenText numbered (below? numbered 0) (itemProps []) .empty (.repeated numberedItems) =
        .error (.depthExceeded "item" 64) ∧
      tokenText numbered (below? numbered 1) (itemProps []) .empty (.repeated numberedItems) =
        .ok "" := by
  have unreferenced : numberedItems.id ∉ numberedItems.references := by decide
  have htext : tokenText numbered (below? numbered 1) (itemProps twoItems) .empty
      (.repeated numberedItems) =
        .ok "<li class=\"row\">0: a</li>\n<li class=\"row\">x: b</li>" := by
    cbv
  have hscope : ∀ k fields, twoItems[k]? = some fields →
      ElementScope (itemProps twoItems) numberedItems.id fields k (itemScope k) := by
    intro k fields hfields
    rw [itemScope, hfields, Option.getD_some]
    exact elementScope_cons (itemProps twoItems) "items" fields k
  obtain ⟨two, _⟩ := @repeated_eq_singles numbered 1 (itemProps twoItems) .empty numberedItems
    twoItems rfl unreferenced
  obtain ⟨_, stopped⟩ := @repeated_eq_singles numbered 0 (itemProps []) .empty numberedItems []
    rfl unreferenced
  obtain ⟨_, entered⟩ := @repeated_eq_singles numbered 1 (itemProps []) .empty numberedItems []
    rfl unreferenced
  refine ⟨two (List.cons_ne_nil _ _) itemScope hscope, htext, ?_, ?_⟩
  · exact (stopped rfl).1 _ rfl
  · exact ((entered rfl).2 _ rfl).2 _ rfl

end Render

end Stencil
