import Mathlib.Data.List.Sort
import Mathlib.Data.Rat.Defs
import Mathlib.Tactic.Common

/-!
# JSON documents

Documents are modelled by the values they denote. A `json.RawMessage` is either
text that denotes a value or text that does not parse; the two are told apart by
the encoder and by the `JSONB` columns, which reject the second kind.
-/

namespace Orchestrator

/-- A JSON value. Objects list their members in document order. -/
inductive Json
  | null
  | bool (value : Bool)
  | num (value : ℚ)
  | str (value : String)
  | arr (items : List Json)
  | obj (fields : List (String × Json))
  deriving Repr, Inhabited

/-- The bytes of a `json.RawMessage`: a document, or text that is none. -/
inductive RawMessage
  | valid (value : Json)
  | invalid (text : String)
  deriving Repr, Inhabited

/-- The document of an empty object, the default of most `JSONB` columns. -/
def RawMessage.emptyObject : RawMessage := .valid (.obj [])

/-- Whether the bytes are a JSON document. -/
def RawMessage.IsValid : RawMessage → Prop
  | .valid _ => True
  | .invalid _ => False

/-- An absent document is valid. -/
theorem RawMessage.isValid_of_none (m : RawMessage) (h : none = some m) : m.IsValid := by
  cases h

instance (m : RawMessage) : Decidable m.IsValid :=
  match m with
  | .valid _ => isTrue trivial
  | .invalid _ => isFalse id

/-- How `json.Marshal` renders one member of a `map[string]json.RawMessage`: a
nil message is `null`, and a message that is no document is an error. -/
def marshalMember (output : Option RawMessage) : Option Json :=
  match output with
  | none => some .null
  | some (.valid v) => some v
  | some (.invalid _) => none

/-- `json.Marshal` of a `map[string]json.RawMessage`. Members are written in
increasing order of their names; one bad member makes the whole call fail. -/
def marshalOutputs (outputs : List (String × Option RawMessage)) : Option RawMessage := do
  let fields ← (outputs.insertionSort (fun a b => a.1 ≤ b.1)).mapM
    (fun o => (marshalMember o.2).map (fun v => (o.1, v)))
  pure (.valid (.obj fields))

/-- `json.Unmarshal` into a `map[string]json.RawMessage`: the members of an
object. A later member of the same name replaces an earlier one. -/
def unmarshalMembers : RawMessage → Option (String → Option Json)
  | .valid (.obj fields) =>
    some (fun name => (fields.reverse.find? (fun f => f.1 = name)).map (·.2))
  | .valid .null => some (fun _ => none)
  | _ => none

/-- A loop whose calls all succeed. -/
theorem mapM_eq_some_map {α β : Type} {f : α → Option β} {g : α → β} {l : List α}
    (h : ∀ a ∈ l, f a = some (g a)) : l.mapM f = some (l.map g) := by
  induction l with
  | nil => rfl
  | cons a l ih =>
    obtain ⟨ha, hl⟩ := List.forall_mem_cons.mp h
    rw [List.mapM_cons, ha, ih hl]
    rfl

/-- Members under different names are decoded as they were encoded. -/
theorem unmarshalMembers_marshalOutputs {outputs : List (String × Option RawMessage)}
    (hvalid : ∀ o ∈ outputs, ∀ m, o.2 = some m → m.IsValid)
    (hnodup : (outputs.map (·.1)).Nodup) :
    ∃ out members, marshalOutputs outputs = some out ∧ unmarshalMembers out = some members ∧
      (∀ o ∈ outputs, members o.1 = marshalMember o.2) ∧
      ∀ name, (∀ o ∈ outputs, o.1 ≠ name) → members name = none := by
  have hmember : ∀ o ∈ outputs, ∃ x, marshalMember o.2 = some x := by
    rintro ⟨name, _ | (x | x)⟩ ho
    · exact ⟨.null, rfl⟩
    · exact ⟨x, rfl⟩
    · exact (hvalid _ ho _ rfl).elim
  have hmem : ∀ o, o ∈ outputs.insertionSort (fun a b => a.1 ≤ b.1) ↔ o ∈ outputs :=
    fun o => List.mem_insertionSort _
  have hloop : (outputs.insertionSort (fun a b => a.1 ≤ b.1)).mapM
      (fun o => (marshalMember o.2).map (fun x => (o.1, x))) =
      some ((outputs.insertionSort (fun a b => a.1 ≤ b.1)).map
        (fun o => (o.1, (marshalMember o.2).getD .null))) := by
    refine mapM_eq_some_map (fun o ho => ?_)
    obtain ⟨x, hx⟩ := hmember o ((hmem o).mp ho)
    simp [hx]
  generalize hsorted : outputs.insertionSort (fun a b => a.1 ≤ b.1) = sorted at hmem hloop
  refine ⟨_, _, by rw [marshalOutputs, hsorted, hloop]; rfl, rfl, fun o ho => ?_,
    fun name hnone => ?_⟩
  · -- The member found has the name of `o`, and there is only one.
    cases hfind : (sorted.map (fun o => (o.1, (marshalMember o.2).getD .null))).reverse.find?
      (fun f => f.1 = o.1) with
    | none =>
      have hnot := List.find?_eq_none.mp hfind (o.1, (marshalMember o.2).getD .null)
        (List.mem_reverse.mpr (List.mem_map.mpr ⟨o, (hmem o).mpr ho, rfl⟩))
      simp at hnot
    | some f =>
      obtain ⟨o', ho', rfl⟩ := List.mem_map.mp
        (List.mem_reverse.mp (List.mem_of_find?_eq_some hfind))
      have hname : o'.1 = o.1 := by simpa using List.find?_some hfind
      obtain rfl := List.inj_on_of_nodup_map hnodup ((hmem o').mp ho') ho hname
      obtain ⟨x, hx⟩ := hmember o' ho
      simp [hx]
  · have hfind : (sorted.map (fun o => (o.1, (marshalMember o.2).getD .null))).reverse.find?
        (fun f => f.1 = name) = none := by
      refine List.find?_eq_none.mpr (fun f hf => ?_)
      obtain ⟨o, ho, rfl⟩ := List.mem_map.mp (List.mem_reverse.mp hf)
      simpa using hnone o ((hmem o).mp ho)
    rw [hfind]
    rfl

/-- The representative of a rune under `unicode.SimpleFold`, for the runes that
fold to an ASCII letter. -/
def foldRune (c : Char) : Char :=
  if c = Char.ofNat 0x17F then 'S' else if c = Char.ofNat 0x212A then 'K' else c.toUpper

/-- Whether `encoding/json` decodes an object member into the struct field of
the given tag: the names agree up to case. -/
def fieldMatches (tag member : String) : Bool :=
  decide (member = tag) || (member.toList.map foldRune == tag.toList.map foldRune)

/-- `json.Unmarshal` into a struct with one string field. Members of another
type are reported and skipped, and the report is ignored by the caller; a later
member overrides an earlier one. -/
def unmarshalStringField (tag : String) : RawMessage → String
  | .valid (.obj fields) =>
    fields.foldl (fun found f =>
      match f.2 with
      | .str s => if fieldMatches tag f.1 then s else found
      | _ => found) ""
  | _ => ""

end Orchestrator
