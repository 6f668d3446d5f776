import Stencil.Proofs.OrderedAttributes

/-!
# Attributes along a chain of wildcards

A chain of components that each include the next one, with a wildcard below the first, hands every
attribute that is set on the way down to its end. There each key stands once. If wildcards come
first at every level, what is set further down goes before what comes from above, and the keys stand
in the order in which they were set, from the outermost level inwards.
-/

namespace Stencil

/-- A chain of registered components that starts at a name: each is one inclusion of the next, with
arguments of literal text, and the last is the place for attributes. The list holds the arguments of
the inclusions, the outermost first. -/
inductive ForwardingChain (registry : Registry) : String → List (List Argument) → Prop
  | last {name component} (found : registry.get? name = some component)
      (tokens : component.tokens = [.forwarded]) : ForwardingChain registry name []
  | link {name component inclusion levels} (found : registry.get? name = some component)
      (tokens : component.tokens = [.single inclusion]) (literal : inclusion.references = [])
      (tail : ForwardingChain registry inclusion.name levels) :
      ForwardingChain registry name (inclusion.arguments :: levels)

/-- The keys with the texts that arguments of literal text set themselves, one after the other. -/
def ownSettings (arguments : List Argument) : List (String × String) :=
  arguments.flatMap (Argument.expansion [] .empty)

/-- Every wildcard stands before all arguments with a name. -/
def WildcardsFirst (arguments : List Argument) : Prop :=
  ∃ count named, arguments = List.replicate count .wildcard ++ named ∧ .wildcard ∉ named

/-- The attributes that an inclusion with arguments of literal text hands on. -/
def handOn (inherited : Attributes) (arguments : List Argument) : Attributes :=
  .ofList (arguments.flatMap (Argument.expansion [] inherited))

section Arguments

variable {props : Json.Fields} {inherited : Attributes} {arguments : List Argument}

/-- Literal text is the same whatever the props are. -/
theorem Argument.expansion_of_literal {argument : Argument} (literal : argument.references = []) :
    argument.expansion props inherited = argument.expansion [] inherited := by
  cases argument with
  | named name fragments =>
      have htexts : fragments.map (Fragment.text props) = fragments.map (Fragment.text []) := by
        apply List.map_congr_left
        intro fragment hmem
        cases fragment with
        | literal text => rfl
        | prop x =>
            have hx : x ∈ (named name fragments).references := mem_references_named.2 hmem
            rw [literal] at hx
            cases hx
      rw [expansion, expansion, htexts]
  | wildcard => rfl

theorem evaluateArguments_of_literal (literal : arguments.flatMap Argument.references = []) :
    evaluateArguments arguments props inherited = .ok (handOn inherited arguments) := by
  have present : ∀ x ∈ arguments.flatMap Argument.references, (props.lookup x).isSome := by
    rw [literal]
    nofun
  have hexpansion : arguments.flatMap (Argument.expansion props inherited) =
      arguments.flatMap (Argument.expansion [] inherited) := by
    apply List.flatMap_congr
    intro argument hmem
    exact Argument.expansion_of_literal (List.flatMap_eq_nil_iff.1 literal argument hmem)
  rw [evaluateArguments_of_present present, hexpansion, handOn]

/-- What is handed on has the keys of the arguments, and those inherited if there is a wildcard. -/
theorem mem_keys_handOn {key : String} :
    key ∈ (handOn inherited arguments).entries.map (·.1) ↔
      (∃ fragments, .named key fragments ∈ arguments) ∨
        .wildcard ∈ arguments ∧ key ∈ inherited.entries.map (·.1) := by
  rw [handOn, Attributes.mem_keys_ofList, List.map_flatMap, List.mem_flatMap]
  constructor
  · rintro ⟨argument, hmem, hkey⟩
    cases argument with
    | named name fragments =>
        obtain rfl := List.mem_singleton.1 hkey
        exact .inl ⟨fragments, hmem⟩
    | wildcard => exact .inr ⟨hmem, hkey⟩
  · rintro (⟨fragments, hmem⟩ | ⟨hmem, hkey⟩)
    · exact ⟨_, hmem, List.mem_singleton_self key⟩
    · exact ⟨_, hmem, hkey⟩

/-- Wildcards set nothing but what is inherited. -/
theorem mem_of_mem_expansion_wildcards {count : Nat} {e : String × String}
    (h : e ∈ (List.replicate count .wildcard).flatMap (Argument.expansion [] inherited)) :
    e ∈ inherited.entries := by
  obtain ⟨argument, hmem, he⟩ := List.mem_flatMap.1 h
  rwa [List.eq_of_mem_replicate hmem] at he

/-- Behind wildcards that are in front only the arguments with a name set anything themselves. -/
theorem ownSettings_wildcards_append {count : Nat} {named : List Argument}
    (onlyNamed : .wildcard ∉ named) : ownSettings (List.replicate count .wildcard ++ named) =
      named.flatMap (Argument.expansion [] inherited) := by
  have hwildcards : (List.replicate count Argument.wildcard).flatMap
      (Argument.expansion [] .empty) = [] :=
    List.eq_nil_iff_forall_not_mem.2 fun _ h => List.not_mem_nil (mem_of_mem_expansion_wildcards h)
  rw [ownSettings, List.flatMap_append, hwildcards, List.nil_append]
  apply List.flatMap_congr
  intro argument hmem
  cases argument with
  | named name fragments => rfl
  | wildcard => exact absurd hmem onlyNamed

/-- With wildcards in front, arguments are set on top of what is inherited. -/
theorem handOn_of_wildcardsFirst (forwards : .wildcard ∈ arguments)
    (first : WildcardsFirst arguments) :
    handOn inherited arguments = inherited.setAll (ownSettings arguments) := by
  obtain ⟨count, named, rfl, onlyNamed⟩ := first
  have hcount : count ≠ 0 := by
    rintro rfl
    exact onlyNamed forwards
  obtain ⟨more, rfl⟩ := Nat.exists_eq_succ_of_ne_zero hcount
  calc
    handOn inherited (List.replicate (more + 1) .wildcard ++ named)
      = .ofList (inherited.entries ++ ((List.replicate more Argument.wildcard).flatMap
          (Argument.expansion [] inherited) ++ named.flatMap (Argument.expansion [] inherited))) := by
        rw [handOn, List.flatMap_append, List.replicate_succ, List.flatMap_cons, List.append_assoc]
        rfl
    _ = (inherited.setAll ((List.replicate more Argument.wildcard).flatMap
          (Argument.expansion [] inherited))).setAll
            (named.flatMap (Argument.expansion [] inherited)) := by
        rw [Attributes.ofList_append, Attributes.ofList_entries, Attributes.setAll_append]
    _ = inherited.setAll (ownSettings (List.replicate (more + 1) .wildcard ++ named)) := by
        rw [Attributes.setAll_of_mem fun _ => mem_of_mem_expansion_wildcards,
          ownSettings_wildcards_append onlyNamed]

variable {levels : List (List Argument)}

/-- No key is lost on a way of wildcards, and none comes from elsewhere. -/
theorem mem_keys_foldl_handOn (forwards : ∀ arguments ∈ levels, .wildcard ∈ arguments)
    {key : String} : key ∈ (levels.foldl handOn inherited).entries.map (·.1) ↔
      key ∈ inherited.entries.map (·.1) ∨
        ∃ arguments ∈ levels, ∃ fragments, .named key fragments ∈ arguments := by
  induction levels generalizing inherited with
  | nil => simp
  | cons arguments rest ih =>
      obtain ⟨hfirst, hrest⟩ := List.forall_mem_cons.1 forwards
      rw [List.foldl_cons, ih hrest, mem_keys_handOn, List.exists_mem_cons_iff]
      constructor
      · rintro ((hkey | ⟨_, hkey⟩) | hkey)
        · exact .inr (.inl hkey)
        · exact .inl hkey
        · exact .inr (.inr hkey)
      · rintro (hkey | hkey | hkey)
        · exact .inl (.inr ⟨hfirst, hkey⟩)
        · exact .inl (.inl hkey)
        · exact .inr hkey

/-- With wildcards in front at every level, the settings of the levels follow each other. -/
theorem foldl_handOn_of_wildcardsFirst (forwards : ∀ arguments ∈ levels, .wildcard ∈ arguments)
    (first : ∀ arguments ∈ levels, WildcardsFirst arguments) :
    levels.foldl handOn inherited = inherited.setAll (levels.flatMap ownSettings) := by
  induction levels generalizing inherited with
  | nil => rfl
  | cons arguments rest ih =>
      obtain ⟨hforwards, hrest⟩ := List.forall_mem_cons.1 forwards
      obtain ⟨hfirst, hothers⟩ := List.forall_mem_cons.1 first
      rw [List.foldl_cons, handOn_of_wildcardsFirst hforwards hfirst, ih hrest hothers,
        List.flatMap_cons, Attributes.setAll_append]

/-- The last setting of a key is the last one at the innermost level that sets it. -/
theorem lookup_reverse_flatMap_ownSettings (levels : List (List Argument)) (key : String) :
    (levels.flatMap ownSettings).reverse.lookup key =
      levels.reverse.findSome? fun arguments => (ownSettings arguments).reverse.lookup key := by
  induction levels with
  | nil => rfl
  | cons arguments rest ih =>
      rw [List.flatMap_cons, List.reverse_append, List.lookup_append, ih, List.reverse_cons,
        List.findSome?_append, List.findSome?_singleton]

end Arguments

namespace ForwardingChain

variable {registry : Registry} {name : String} {levels : List (List Argument)}

theorem exists_found (chain : ForwardingChain registry name levels) :
    ∃ component, registry.get? name = some component := by
  cases chain with
  | last found _ => exact ⟨_, found⟩
  | link found _ _ _ => exact ⟨_, found⟩

/-- What a chain is handed is handed on from level to level, and written out at its end. -/
theorem within (chain : ForwardingChain registry name levels) {component : Component}
    (found : registry.get? name = some component) {left : Nat} (limit : levels.length ≤ left)
    (props : Json.Fields) (inherited : Attributes) :
    Render.within registry left component props inherited =
      .ok (levels.foldl handOn inherited).text := by
  -- along the chain: the next component starts with what is handed on, and with one level less
  induction chain generalizing component left props inherited with
  | last known tokens =>
      rw [found] at known
      cases known
      rw [Render.within_eq, tokens]
      exact congrArg Except.ok String.append_empty
  | @link name component' inclusion levels known tokens literal tail ih =>
      rw [found] at known
      cases known
      obtain ⟨child, hchild⟩ := tail.exists_found
      obtain ⟨n, rfl⟩ : ∃ n, left = n + 1 := ⟨left - 1, by simp at limit; omega⟩
      have hinclusion : Render.tokenText registry (Render.below? registry (n + 1)) props inherited
          (.single inclusion) = .ok (levels.foldl handOn (handOn inherited
            inclusion.arguments)).text := by
        have hbelow := ih hchild (Nat.le_of_succ_le_succ limit)
          (Render.singleProps props inclusion.id) (handOn inherited inclusion.arguments)
        rw [Render.tokenText, Render.below?, Render.resolve_of_some hchild,
          evaluateArguments_of_literal literal]
        change Render.inclusionText inclusion _ _ _ = _
        rw [Render.inclusionText, hbelow]
        rfl
      rw [Render.within_eq, tokens, Render.tokensText, hinclusion]
      exact congrArg Except.ok String.append_empty

end ForwardingChain

/-- A chain of wildcards within the limit is rendered for any props, and writes each key that some
level sets once. With wildcards in front at all levels below the first, the keys stand in the order
in which they are first set, from the outermost level inwards, each with the text that is set last
at the innermost level that sets it. -/
theorem Registry.renderComponent_forwardingChain {registry : Registry} {name : String}
    {levels : List (List Argument)} (chain : ForwardingChain registry name levels)
    (limit : levels.length ≤ registry.maxDepth)
    (forwards : ∀ arguments ∈ levels.tail, .wildcard ∈ arguments) :
    ∃ entries : List (String × String),
      (∀ props, registry.renderComponent name props =
        .ok (" ".intercalate (entries.map fun e => e.1 ++ "=\"" ++ e.2 ++ "\""))) ∧
      (entries.map (·.1)).Nodup ∧
      (∀ key, key ∈ entries.map (·.1) ↔
        ∃ arguments ∈ levels, ∃ fragments, .named key fragments ∈ arguments) ∧
      ((∀ arguments ∈ levels.tail, WildcardsFirst arguments) →
        entries.map (·.1) = ((levels.flatMap ownSettings).map (·.1)).eraseDups ∧
        ∀ e ∈ entries, (levels.reverse.findSome? fun arguments =>
          (ownSettings arguments).reverse.lookup e.1) = some e.2) := by
  obtain ⟨component, found⟩ := chain.exists_found
  refine ⟨(levels.foldl handOn .empty).entries, ?_, (levels.foldl handOn .empty).distinct, ?_, ?_⟩
  · intro props
    rw [Registry.renderComponent, found]
    exact chain.within found limit props .empty
  · intro key
    cases levels with
    | nil => simp [Attributes.empty]
    | cons first rest =>
        rw [List.tail_cons] at forwards
        rw [List.foldl_cons, mem_keys_foldl_handOn forwards, mem_keys_handOn,
          List.exists_mem_cons_iff]
        simp [Attributes.empty]
  · intro wildcardsFirst
    have hentries : levels.foldl handOn .empty = .ofList (levels.flatMap ownSettings) := by
      cases levels with
      | nil => rfl
      | cons first rest =>
          rw [List.tail_cons] at forwards wildcardsFirst
          have hfirst : handOn .empty first = .ofList (ownSettings first) := rfl
          rw [List.foldl_cons, foldl_handOn_of_wildcardsFirst forwards wildcardsFirst, hfirst,
            List.flatMap_cons, Attributes.ofList_append]
    rw [hentries]
    refine ⟨Attributes.keys_ofList _, ?_⟩
    intro e he
    rw [← lookup_reverse_flatMap_ownSettings, ← Attributes.lookup_ofList]
    exact (Dictionary.lookup_eq_some_iff (Attributes.distinct _)).2 he

/-- Three levels, of which the middle one sets a key from above once more, and twice. -/
def layers : Registry :=
  ((Registry.empty.register "page" "<ez name=\"box\" id=\"b\" class=\"a\" $* lang=\"x\" />").register
    "box" "<ez name=\"end\" id=\"e\" $* $* class=\"b\" rel=\"1\" class=\"c\" />").register "end" "$*"

def pageArguments : List Argument :=
  [.named "class" [.literal "a"], .wildcard, .named "lang" [.literal "x"]]

def boxArguments : List Argument :=
  [.wildcard, .wildcard, .named "class" [.literal "b"], .named "rel" [.literal "1"],
    .named "class" [.literal "c"]]

theorem layers_chain : ForwardingChain layers "page" [pageArguments, boxArguments] := by
  have page : (Component.ofSource
      "<ez name=\"box\" id=\"b\" class=\"a\" $* lang=\"x\" />").tokens =
        [.single ⟨"box", "b", pageArguments⟩] := by cbv
  have box : (Component.ofSource
      "<ez name=\"end\" id=\"e\" $* $* class=\"b\" rel=\"1\" class=\"c\" />").tokens =
        [.single ⟨"end", "e", boxArguments⟩] := by cbv
  have last : (Component.ofSource "$*").tokens = [.forwarded] := by cbv
  exact .link rfl page rfl (.link rfl box rfl (.last rfl last))

theorem Registry.renderComponent_forwardingChain_layers :
    layers.renderComponent "page" [] = .ok "class=\"c\" lang=\"x\" rel=\"1\"" := by
  have forwards : ∀ arguments ∈ [pageArguments, boxArguments].tail, .wildcard ∈ arguments := by
    decide
  have first : ∀ arguments ∈ [pageArguments, boxArguments].tail, WildcardsFirst arguments := by
    intro arguments hmem
    rw [List.mem_singleton.1 hmem]
    exact ⟨2, boxArguments.drop 2, rfl, by decide⟩
  obtain ⟨entries, rendered, _, _, ordered⟩ :=
    Registry.renderComponent_forwardingChain layers_chain (by decide) forwards
  obtain ⟨keys, values⟩ := ordered first
  have hkeys : entries.map (·.1) = ["class", "lang", "rel"] := keys.trans (by cbv)
  have hentries : entries = [("class", "c"), ("lang", "x"), ("rel", "1")] := by
    calc
      entries = (entries.map (·.1)).map fun key => (key,
          ([pageArguments, boxArguments].reverse.findSome? fun arguments =>
            (ownSettings arguments).reverse.lookup key).getD "") := by
        rw [List.map_map]
        refine (List.map_id entries).symm.trans (List.map_congr_left fun e he => ?_)
        rw [Function.comp_apply, values e he]
        rfl
      _ = _ := by
        rw [hkeys]
        cbv
  rw [rendered, hentries]
  cbv

end Stencil
