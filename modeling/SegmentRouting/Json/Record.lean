import SegmentRouting.Json.Skip

/-! Records with named fields, written as an object or as a list of the fields
in their order. Fields of other names are passed over; a field given twice is
a mismatch where its name comes again, a missing one at the closing bracket. -/

namespace SegmentRouting.Json

/-- A field of a record of which so far a draft is read. -/
structure Field (δ : Type) where
  name : String
  isGiven : δ → Bool
  read : δ → Reader δ

def Field.of {δ α : Type} (name : String) (get : δ → Option α) (set : δ → α → δ)
    (read : Reader α) : Field δ :=
  ⟨name, fun draft => (get draft).isSome, fun draft => read.map (set draft)⟩

/-- A record is made from its draft unless the draft lacks a required field. -/
structure RecordShape (δ α : Type) where
  blank : δ
  fields : List (Field δ)
  finish : δ → Option α

namespace RecordShape

variable {δ α : Type}

def member (r : RecordShape δ α) (draft : δ) : Reader δ := fun s =>
  match skipSpace s with
  | '"' :: s => do
    let (key, s) ← stringRest s
    match r.fields.find? (fun f => f.name == key) with
    | none =>
      let s ← colon s
      let s ← skipValue s
      return (draft, s)
    | some f =>
      if f.isGiven draft then .error .mismatch
      else do
        let s ← colon s
        f.read draft s
  | _ => .error .malformed

/-- The members after the first, and the closing brace. -/
def moreMembers (r : RecordShape δ α) : Nat → δ → Reader δ
  | 0, _, _ => .error .malformed
  | bound + 1, draft, s =>
    match skipSpace s with
    | '}' :: s => .ok (draft, s)
    | ',' :: s => do
      let (draft, s) ← r.member draft s
      r.moreMembers bound draft s
    | _ => .error .malformed

def members (r : RecordShape δ α) : Reader δ := fun s =>
  match skipSpace s with
  | '}' :: s => .ok (r.blank, s)
  | s => do
    let (draft, s) ← r.member r.blank s
    r.moreMembers s.length draft s

/-- Further fields of the list form, up to its closing bracket. -/
def moreFields : List (Field δ) → δ → Reader δ
  | [], draft, s => .ok (draft, s)
  | f :: fs, draft, s =>
    match skipSpace s with
    | ']' :: s => .ok (draft, ']' :: s)
    | ',' :: s => do
      let (draft, s) ← f.read draft s
      moreFields fs draft s
    | _ => .error .malformed

def listed (r : RecordShape δ α) : Reader δ := fun s =>
  match skipSpace s with
  | ']' :: s => .ok (r.blank, ']' :: s)
  | s =>
    match r.fields with
    | [] => .ok (r.blank, s)
    | f :: fs => do
      let (draft, s) ← f.read r.blank s
      moreFields fs draft s

def closing (s : List Char) : Except ReadFault (List Char) :=
  match skipSpace s with
  | ']' :: s => .ok s
  | _ => .error .malformed

def finished (r : RecordShape δ α) (draft : δ) : Except ReadFault α :=
  match r.finish draft with
  | some a => .ok a
  | none => .error .mismatch

end RecordShape

def record {δ α : Type} (r : RecordShape δ α) : Reader α := fun s =>
  match skipSpace s with
  | '{' :: s => do
    let (draft, s) ← r.members s
    let a ← r.finished draft
    return (a, s)
  | '[' :: s => do
    let (draft, s) ← r.listed s
    let a ← r.finished draft
    let s ← RecordShape.closing s
    return (a, s)
  | s => .error (wrongKind s)

end SegmentRouting.Json
