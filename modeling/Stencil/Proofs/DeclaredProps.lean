import Stencil.Proofs.PropLookups
import Stencil.Proofs.SignatureAgreement

/-!
# A rendering reads what its component declares

The keys of a signature and the ids of single inclusions are the keys that the tokens of the
component look up, neither more nor fewer. No other prop has a say in a rendering, be it the text or
the error.
-/

namespace Stencil

/-- The keys that a schema asks for at its top level. -/
def Schema.keys : Schema → List String
  | .tag _ => []
  | .object fields => fields.map (·.1)

theorem Token.mem_lookups_of_reference {token : Token} {key : String}
    (h : key ∈ token.references) : key ∈ token.lookups := by
  cases token with
  | single inclusion => exact List.mem_cons_of_mem _ h
  | repeated inclusion => exact List.mem_cons_of_mem _ h
  | _ => exact h

namespace Component

variable {c : Component} {key : String}

theorem mem_signature_keys :
    key ∈ c.signature.keys ↔ ∃ type, c.signatureFields.get? key = some (.tag type) := by
  constructor
  · intro h
    obtain ⟨⟨name, schema⟩, hmem, rfl⟩ := List.mem_map.1 h
    have hget := Dictionary.get?_eq_some_iff.2 hmem
    obtain ⟨type, rfl⟩ := exists_tag_of_get? hget
    exact ⟨type, hget⟩
  · rintro ⟨type, hget⟩
    exact List.mem_map.2 ⟨_, Dictionary.get?_eq_some_iff.1 hget, rfl⟩

theorem mem_signature_keys_of_reference {token : Token} (mem : token ∈ c.tokens)
    (h : key ∈ token.references) : key ∈ c.signature.keys :=
  mem_signature_keys.2 (exists_get?_of_reference mem h)

/-- The signature leaves out the ids of single inclusions, and nothing else that is looked up. -/
theorem exists_lookup_iff : (∃ token ∈ c.tokens, key ∈ token.lookups) ↔
    key ∈ c.signature.keys ∨ ∃ d ∈ c.dependencies, d.repeated = false ∧ d.id = key := by
  constructor
  · rintro ⟨token, mem, hkey⟩
    cases token with
    | single inclusion =>
        obtain rfl | hkey := List.mem_cons.1 hkey
        · exact .inr ⟨_, List.mem_filterMap.2 ⟨_, mem, rfl⟩, rfl, rfl⟩
        · exact .inl (mem_signature_keys_of_reference mem hkey)
    | repeated inclusion =>
        obtain rfl | hkey := List.mem_cons.1 hkey
        · have hloop : inclusion.id ∈ c.loopIds := List.mem_filterMap.2 ⟨_, mem, rfl⟩
          exact .inl (mem_signature_keys.2 ⟨.object, get?_of_mem_loopIds hloop⟩)
        · exact .inl (mem_signature_keys_of_reference mem hkey)
    | _ => exact .inl (mem_signature_keys_of_reference mem hkey)
  · rintro (hkey | ⟨d, hd, hsingle, rfl⟩)
    · obtain ⟨type, hget⟩ := mem_signature_keys.1 hkey
      obtain ⟨hloop, _⟩ | ⟨token, mem, hreference, _⟩ := get?_cases hget
      · obtain ⟨token, mem, hid⟩ := List.mem_filterMap.1 hloop
        cases token <;> cases hid
        exact ⟨_, mem, List.mem_cons_self⟩
      · exact ⟨token, mem, Token.mem_lookups_of_reference hreference⟩
    · obtain ⟨token, mem, htoken⟩ := List.mem_filterMap.1 hd
      cases token with
      | single inclusion =>
          cases htoken
          exact ⟨_, mem, List.mem_cons_self⟩
      | repeated inclusion =>
          cases htoken
          cases hsingle
      | _ => cases htoken

end Component

/-- Props that agree on what a signature asks for, and under the ids of single inclusions, give the
same rendering, whether that is a text or an error. -/
theorem Registry.render_eq_of_declared {registry : Registry} {component : Component}
    {forwarded : Attributes} {props other : Json.Fields}
    (declared : ∀ key ∈ component.signature.keys, props.lookup key = other.lookup key)
    (singles : ∀ d ∈ component.dependencies, d.repeated = false →
      props.lookup d.id = other.lookup d.id) :
    registry.render component props forwarded = registry.render component other forwarded := by
  apply Render.within_congr_of_lookups
  intro token mem key hkey
  obtain hdeclared | ⟨d, hd, hsingle, rfl⟩ := Component.exists_lookup_iff.1 ⟨token, mem, hkey⟩
  · exact declared key hdeclared
  · exact singles d hd hsingle

/-- A heading with whatever attributes it is handed. -/
def headings : Registry := Registry.empty.register "heading" "<h1 $*>$\x7bt\x7d</h1>"

/-- A link around a heading, whose class is a prop. -/
def linkedHeading : Component :=
  .ofSource "<a $href><ez name=\"heading\" id=\"h\" class=\"$\x7bkind\x7d\" /></a>"

/-- A prop that is not declared may be there or not, and the order of the props does not matter. -/
theorem Registry.render_eq_of_declared_heading :
    headings.render linkedHeading
        [("token", .string "x"), ("h", .object [("t", .string "a")]), ("kind", .string "b"),
          ("href", .string "/")] .empty = .ok "<a href=\"/\"><h1 class=\"b\">a</h1></a>" ∧
      headings.render linkedHeading [("token", .string "x"), ("href", .string "/")] .empty =
        headings.render linkedHeading [("href", .string "/")] .empty := by
  have keys : linkedHeading.signature.keys = ["href", "kind"] := by cbv
  have dependencies : linkedHeading.dependencies = [⟨"heading", "h", false⟩] := by cbv
  have hrender : headings.render linkedHeading
      [("href", .string "/"), ("kind", .string "b"), ("h", .object [("t", .string "a")])] .empty =
        .ok "<a href=\"/\"><h1 class=\"b\">a</h1></a>" := by cbv
  constructor
  · rw [← hrender]
    apply Registry.render_eq_of_declared
    · rw [keys]
      simp [Dictionary.lookup_cons_ite]
    · rw [dependencies]
      simp [Dictionary.lookup_cons_ite]
  · apply Registry.render_eq_of_declared
    · rw [keys]
      simp [Dictionary.lookup_cons_ite]
    · rw [dependencies]
      simp [Dictionary.lookup_cons_ite]

end Stencil
