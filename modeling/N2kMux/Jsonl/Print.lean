import N2kMux.Jsonl.Render

/-!
# A printer

`Message.print` prints a message without blanks, its members in the order of
`Message.members`.  It is one of the printed forms of the message.
-/

namespace N2kMux
namespace Jsonl

open Scan (Blanks Members Body)

/-! ### Tokens -/

/-- A character, escaped when there is an escape for it. -/
def escape (c : Char) : Text :=
  match escapes.find? (fun e => e.2 = c) with
  | some e => ['\\', e.1]
  | none => [c]

def printStr (s : Text) : Text := '"' :: (s.flatMap escape ++ ['"'])

theorem rendersChars_escape (s : Text) : RendersChars s (s.flatMap escape) := by
  induction s with
  | nil =>
      exact .nil
  | cons c s ih =>
      rw [List.flatMap_cons]
      unfold escape
      cases hfind : escapes.find? (fun e => e.2 = c) with
      | some e =>
          have hc : e.2 = c := by simpa using List.find?_some hfind
          obtain ⟨e, d⟩ := e
          obtain rfl := hc
          exact .escaped (List.mem_of_find?_eq_some hfind) ih
      | none =>
          have hne := List.find?_eq_none.mp hfind
          refine .plain ?_ ?_ ih
          · rintro rfl
            exact hne ('"', '"') (by decide) (by decide)
          · rintro rfl
            exact hne ('\\', '\\') (by decide) (by decide)

theorem rendersStr_printStr (s : Text) : RendersStr s (printStr s) :=
  ⟨_, rendersChars_escape s, rfl⟩

/-- Members with commas between them. -/
def printBody : List Text → Text
  | [] => []
  | [t] => t
  | t :: ts => t ++ ',' :: printBody ts

theorem body_printBody {β : Type} {R : β → Text → Prop} {l : List β} {ts : List Text}
    (h : List.Forall₂ R l ts) :
    Body isWs R l (printBody ts) := by
  have hnil : Blanks isWs [] := by simp [Blanks]
  have hlast : ∀ {x t}, R x t → Members isWs R [x] t := fun hx => by
    simpa using Members.last hnil hx hnil
  have hcons : ∀ {x t xs s}, R x t → Members isWs R xs s →
      Members isWs R (x :: xs) (t ++ ',' :: s) := fun hx hxs =>
    Members.cons hnil hx hnil hxs
  cases h with
  | nil => exact .empty hnil
  | @cons x t l ts hx h =>
      refine .members ?_
      induction h generalizing x t with
      | nil =>
          exact hlast hx
      | @cons y s l ts hy h ih =>
          exact hcons hx (ih hy)

def printKeyed (key value : Text) : Text := printStr key ++ ':' :: value

theorem keyed_printKeyed {β : Type} {R : β → Text → Prop} {key value : Text} {x : β}
    (h : R x value) :
    Keyed R (key, x) (printKeyed key value) :=
  have hnil : Blanks isWs [] := by simp [Blanks]
  .mk (rendersStr_printStr key) hnil hnil h

theorem forall₂_map {β : Type} {R : β → Text → Prop} {f : β → Text} (l : List β)
    (h : ∀ x ∈ l, R x (f x)) :
    List.Forall₂ R l (l.map f) := by
  rw [List.forall₂_map_right_iff, List.forall₂_same]
  exact h

/-! ### JSON values -/

mutual

def Json.print : Json → Text
  | .null => "null".toList
  | .bool b => boolText b
  | .num n => n.text
  | .str s => printStr s
  | .arr l => bracketed (printBody (Json.printElements l))
  | .obj l => braced (printBody (Json.printMembers l))

def Json.printElements : List Json → List Text
  | [] => []
  | j :: l => j.print :: Json.printElements l

def Json.printMembers : List (Text × Json) → List Text
  | [] => []
  | (k, j) :: l => printKeyed k j.print :: Json.printMembers l

end

mutual

theorem Json.renders_print : ∀ j : Json, j.Renders j.print
  | .null => .null
  | .bool b => .bool b
  | .num n => .num n
  | .str s => .str (rendersStr_printStr s)
  | .arr l => .arr (body_printBody (Json.renders_elements l))
  | .obj l => .obj (body_printBody (Json.renders_members l))

theorem Json.renders_elements :
    ∀ l : List Json, List.Forall₂ Json.Renders l (Json.printElements l)
  | [] => .nil
  | j :: l => .cons j.renders_print (Json.renders_elements l)

theorem Json.renders_members :
    ∀ l : List (Text × Json), List.Forall₂ (Keyed Json.Renders) l (Json.printMembers l)
  | [] => .nil
  | (_, j) :: l => .cons (keyed_printKeyed j.renders_print) (Json.renders_members l)

end

/-! ### Fields -/

namespace NvMember

def printValue : NvMember → Text
  | value n => n.text
  | valueStr s | name s => printStr s
  | other _ j => j.print

theorem renders_printValue (m : NvMember) : m.RendersValue m.printValue := by
  cases m with
  | value n => exact rfl
  | valueStr s | name s => exact rendersStr_printStr s
  | other k j => exact j.renders_print

end NvMember

namespace FieldVal

def print : FieldVal → Text
  | .num n => n.text
  | .str s => printStr s
  | .bool b => boolText b
  | .null => "null".toList
  | .arr l => (Json.arr l).print
  | .nv o => braced (printBody (o.members.map fun m => printKeyed m.key m.printValue))

theorem renders_print (v : FieldVal) : v.Renders v.print := by
  cases v with
  | num n => exact .num n
  | str s => exact .str (rendersStr_printStr s)
  | bool b => exact .bool b
  | null => exact .null
  | arr l => exact .arr (Json.arr l).renders_print
  | nv o =>
      exact .nv (body_printBody (forall₂_map _ fun m _ =>
        keyed_printKeyed m.renders_printValue))

end FieldVal

def Item.print (it : Item) : Text :=
  braced (printBody (it.map fun f : Field => printKeyed f.1 f.2.print))

theorem Item.renders_print (it : Item) : it.Renders it.print :=
  ⟨_, body_printBody (forall₂_map _ fun f _ => keyed_printKeyed f.2.renders_print), rfl⟩

namespace FieldsMember

def printValue : FieldsMember → Text
  | field f _ => f.2.print
  | list items => bracketed (printBody (items.map Item.print))

theorem renders_printValue (m : FieldsMember) : m.RendersValue m.printValue := by
  cases m with
  | field f hlist => exact f.2.renders_print
  | list items =>
      exact ⟨_, body_printBody (forall₂_map _ fun it _ => it.renders_print), rfl⟩

end FieldsMember

/-! ### Lines -/

namespace Member

def printValue : Member → Text
  | src z | pgn z | prio z | dst z => CText.decimalInt z.1
  | timestamp s | description s => printStr s
  | fields l => braced (printBody (l.map fun m => printKeyed m.key m.printValue))
  | other _ j => j.print

theorem renders_printValue (m : Member) : m.RendersValue m.printValue := by
  cases m with
  | src z | pgn z | prio z | dst z => exact rfl
  | timestamp s | description s => exact rendersStr_printStr s
  | fields l =>
      exact ⟨_, body_printBody (forall₂_map _ fun m _ =>
        keyed_printKeyed m.renders_printValue), rfl⟩
  | other k j => exact j.renders_print

end Member

/-- The line of a message. -/
def Message.print (m : Message) : Text :=
  braced (printBody (m.members.map fun x => printKeyed x.key x.printValue))

/-- Every message can be printed. -/
theorem Message.renders_print (m : Message) : m.Renders m.print := by
  refine ⟨m.members, [], _, [], .refl _, body_printBody (forall₂_map _ fun x _ =>
    keyed_printKeyed x.renders_printValue), by simp [Blanks], by simp [Blanks], ?_⟩
  simp [Message.print]

end Jsonl
end N2kMux
