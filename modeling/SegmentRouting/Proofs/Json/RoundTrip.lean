import SegmentRouting.Json.Record
import SegmentRouting.Json.Value

/-! The readers undo the compact text: each gives back what was written and stops
right behind it, whatever follows. Strings may hold any characters. -/

namespace SegmentRouting.Json

/-- The reader finds `a` in the text of the value and leaves what follows it. -/
def ReadsAs {α : Type} (read : Reader α) (v : Value) (a : α) : Prop :=
  ∀ rest, read (v.chars ++ rest) = .ok (a, rest)

variable {α β δ : Type}

theorem ok_bind {ε : Type} (a : α) (f : α → Except ε β) : (Except.ok a >>= f) = f a := rfl

theorem skipSpace_cons {c : Char} (h : isSpace c = false) (s : List Char) :
    skipSpace (c :: s) = c :: s := by
  simp [skipSpace, h]

theorem hexValue?_hexDigit : ∀ d < 16, hexValue? (hexDigit d) = some d := by decide

theorem escapedCode_of_lt {c : Char} (h : c.toNat < 0x20) (s : List Char) :
    escapedCode ('0' :: '0' :: hexDigit (c.toNat / 16) :: hexDigit (c.toNat % 16) :: s) =
      .ok (c, s) := by
  have hhigh := hexValue?_hexDigit (c.toNat / 16) (by omega)
  have hlow := hexValue?_hexDigit (c.toNat % 16) (by omega)
  have hzero : hexValue? '0' = some 0 := rfl
  have hcode : c.toNat / 16 * 16 + c.toNat % 16 = c.toNat := Nat.div_add_mod' _ _
  have hlt : c.toNat < 0xd800 := by omega
  simp [escapedCode, hexCode?, hhigh, hlow, hzero, hcode, hlt, Char.ofNat_toNat]

/-- A character stands for itself unless it is escaped, and then the escape is read as it. -/
theorem escape_cases (c : Char) :
    (∃ e, escape c = '\\' :: e ∧ ∀ s, escaped (e ++ s) = .ok (c, s)) ∨
      (escape c = [c] ∧ c ≠ '"' ∧ c ≠ '\\' ∧ ¬ c.toNat < 0x20) := by
  unfold escape
  split
  case h_8 hquote hslash _ _ _ _ _ =>
    by_cases h : c.toNat < 0x20
    · rw [if_pos h]
      exact .inl ⟨_, rfl, escapedCode_of_lt h⟩
    · rw [if_neg h]
      exact .inr ⟨rfl, hquote, hslash, h⟩
  all_goals exact .inl ⟨_, rfl, fun _ => rfl⟩

theorem stringChars_escape {bound : Nat} {cs : List Char} (h : cs.length < bound)
    (rest : List Char) : stringChars bound (cs.flatMap escape ++ '"' :: rest) = .ok (cs, rest) := by
  induction cs generalizing bound with
  | nil =>
    obtain ⟨bound, rfl⟩ := Nat.exists_eq_succ_of_ne_zero (Nat.ne_zero_of_lt h)
    rfl
  | cons c cs ih =>
    obtain ⟨bound, rfl⟩ := Nat.exists_eq_succ_of_ne_zero (Nat.ne_zero_of_lt h)
    have hrest := ih (by simpa using h : cs.length < bound)
    rw [List.flatMap_cons, List.append_assoc]
    rcases escape_cases c with ⟨e, he, hread⟩ | ⟨he, hquote, hslash, hlow⟩
    · simp only [he, List.cons_append, stringChars, hread, ok_bind, hrest]
      rfl
    · simp only [he, List.singleton_append, stringChars, hlow, if_false, hrest, ok_bind]
      rfl

/-- Each character is written as at least one. -/
theorem length_le_flatMap_escape (cs : List Char) : cs.length ≤ (cs.flatMap escape).length := by
  induction cs with
  | nil => exact Nat.le_refl 0
  | cons c cs ih =>
    have hpos : 0 < (escape c).length := by
      rcases escape_cases c with ⟨e, he, -⟩ | ⟨he, -⟩ <;> simp [he]
    rw [List.flatMap_cons, List.length_append, List.length_cons]
    omega

theorem stringRest_quoted (s : String) (rest : List Char) :
    stringRest (s.toList.flatMap escape ++ '"' :: rest) = .ok (s, rest) := by
  have hlen := length_le_flatMap_escape s.toList
  have hbound : s.toList.length < (s.toList.flatMap escape ++ '"' :: rest).length := by
    rw [List.length_append, List.length_cons]
    omega
  rw [stringRest, stringChars_escape hbound, ok_bind]
  exact congrArg (fun t => Except.ok (t, rest)) String.ofList_toList

theorem quoted_append (s : String) (rest : List Char) :
    quoted s ++ rest = '"' :: (s.toList.flatMap escape ++ '"' :: rest) := by
  simp [quoted]

theorem readsAs_string (s : String) : ReadsAs string (.string s) s := by
  intro rest
  rw [Value.chars, quoted_append, string, skipSpace_cons rfl]
  exact stringRest_quoted s rest

theorem readsAs_bool (b : Bool) : ReadsAs bool (.bool b) b := by
  intro rest
  cases b <;> rfl

theorem ReadsAs.map {read : Reader α} {v : Value} {a : α} (h : ReadsAs read v a) (f : α → β) :
    ReadsAs (read.map f) v (f a) := by
  intro rest
  rw [Reader.map, h rest]
  rfl

theorem isSpace_of_isDigit {c : Char} (h : c.isDigit = true) : isSpace c = false := by
  apply Bool.eq_false_iff.mpr
  intro hspace
  simp only [isSpace, Bool.or_eq_true, beq_iff_eq] at hspace
  rcases hspace with ((rfl | rfl) | rfl) | rfl <;> contradiction

/-- A value starts with no space, and not like the end of a list. -/
theorem exists_cons_chars (v : Value) :
    ∃ c cs, v.chars = c :: cs ∧ isSpace c = false ∧ c ≠ ']' := by
  cases v with
  | null => exact ⟨_, _, rfl, rfl, by decide⟩
  | bool b => cases b <;> exact ⟨_, _, rfl, rfl, by decide⟩
  | number n =>
    obtain ⟨c, cs, hc⟩ := List.exists_cons_of_ne_nil (Nat.toDigits_ne_nil (b := 10) (n := n))
    have hdigit : c.isDigit = true :=
      Nat.isDigit_of_mem_toDigits (by decide) (by decide) (hc ▸ List.mem_cons_self)
    refine ⟨c, cs, hc, isSpace_of_isDigit hdigit, ?_⟩
    rintro rfl
    contradiction
  | string s => exact ⟨_, _, rfl, rfl, by decide⟩
  | array items => cases items <;> exact ⟨_, _, rfl, rfl, by decide⟩
  | object fields => cases fields <;> exact ⟨_, _, rfl, rfl, by decide⟩

theorem length_lt_itemsChars (vs : List Value) (rest : List Char) :
    vs.length < (Value.itemsChars vs ++ rest).length := by
  induction vs with
  | nil => simp [Value.itemsChars]
  | cons v vs ih =>
    simp only [Value.itemsChars, List.length_append, List.length_cons] at ih ⊢
    omega

theorem moreItems_chars {read : Reader α} {f : α → Value} {bound : Nat} {as : List α}
    (h : ∀ a ∈ as, ReadsAs read (f a) a) (hbound : as.length < bound) (rest : List Char) :
    moreItems read bound (Value.itemsChars (as.map f) ++ rest) = .ok (as, rest) := by
  induction as generalizing bound with
  | nil =>
    obtain ⟨bound, rfl⟩ := Nat.exists_eq_succ_of_ne_zero (Nat.ne_zero_of_lt hbound)
    rfl
  | cons a as ih =>
    obtain ⟨bound, rfl⟩ := Nat.exists_eq_succ_of_ne_zero (Nat.ne_zero_of_lt hbound)
    have hrest := ih (fun a' ha' => h a' (List.mem_cons_of_mem a ha'))
      (by simpa using hbound : as.length < bound)
    simp only [List.map_cons, Value.itemsChars, List.cons_append, List.append_assoc, moreItems,
      skipSpace_cons (rfl : isSpace ',' = false), h a List.mem_cons_self _, hrest, ok_bind]
    rfl

theorem readsAs_list {read : Reader α} {f : α → Value} {as : List α}
    (h : ∀ a ∈ as, ReadsAs read (f a) a) : ReadsAs (list read) (.array (as.map f)) as := by
  intro rest
  cases as with
  | nil => rfl
  | cons a as =>
    obtain ⟨c, cs, hc, hspace, hclose⟩ := exists_cons_chars (f a)
    have hread := h a List.mem_cons_self (Value.itemsChars (as.map f) ++ rest)
    have hlen := length_lt_itemsChars (as.map f) rest
    rw [List.length_map] at hlen
    have hmore := moreItems_chars (fun a' ha' => h a' (List.mem_cons_of_mem a ha')) hlen rest
    rw [hc, List.cons_append] at hread
    simp only [List.map_cons, Value.chars, List.cons_append, List.append_assoc, list, hc,
      skipSpace_cons (rfl : isSpace '[' = false), skipSpace_cons hspace]
    split
    · rename_i hends
      exact absurd (List.cons.inj hends).1 hclose
    · simp only [hread, ok_bind, hmore]
      rfl

theorem colon_cons (s : List Char) : colon (':' :: s) = .ok s := rfl

theorem entry_chars {read : Reader α} {v : Value} {a : α} (h : ReadsAs read v a) (k : String)
    (rest : List Char) :
    entry read (quoted k ++ ':' :: (v.chars ++ rest)) = .ok ((k, a), rest) := by
  simp only [quoted_append, entry, skipSpace_cons (rfl : isSpace '"' = false), stringRest_quoted,
    ok_bind, colon_cons, h rest]
  rfl

theorem length_lt_fieldsChars (fs : List (String × Value)) (rest : List Char) :
    fs.length < (Value.fieldsChars fs ++ rest).length := by
  induction fs with
  | nil => simp [Value.fieldsChars]
  | cons e fs ih =>
    simp only [Value.fieldsChars, List.length_append, List.length_cons] at ih ⊢
    omega

theorem moreEntries_chars {read : Reader α} {f : α → Value} {bound : Nat}
    {es : List (String × α)} (h : ∀ e ∈ es, ReadsAs read (f e.2) e.2) (hbound : es.length < bound)
    (rest : List Char) :
    moreEntries read bound (Value.fieldsChars (es.map (fun e => (e.1, f e.2))) ++ rest) =
      .ok (es, rest) := by
  induction es generalizing bound with
  | nil =>
    obtain ⟨bound, rfl⟩ := Nat.exists_eq_succ_of_ne_zero (Nat.ne_zero_of_lt hbound)
    rfl
  | cons e es ih =>
    obtain ⟨bound, rfl⟩ := Nat.exists_eq_succ_of_ne_zero (Nat.ne_zero_of_lt hbound)
    have hrest := ih (fun e' he' => h e' (List.mem_cons_of_mem e he'))
      (by simpa using hbound : es.length < bound)
    simp only [List.map_cons, Value.fieldsChars, List.cons_append, List.append_assoc, moreEntries,
      skipSpace_cons (rfl : isSpace ',' = false), entry_chars (h e List.mem_cons_self), hrest,
      ok_bind]
    rfl

theorem readsAs_dict {read : Reader α} {f : α → Value} {d : Dict α}
    (h : ∀ e ∈ d.toList, ReadsAs read (f e.2) e.2) :
    ReadsAs (dict read) (.object (d.toList.map (fun e => (e.1, f e.2)))) d := by
  have hd := d.ofList_toList
  intro rest
  cases hentries : d.toList with
  | nil =>
    rw [hentries] at hd
    rw [← hd]
    rfl
  | cons e es =>
    rw [hentries] at h hd
    have hlen := length_lt_fieldsChars (es.map (fun e => (e.1, f e.2))) rest
    rw [List.length_map] at hlen
    have hmore := moreEntries_chars (fun e' he' => h e' (List.mem_cons_of_mem e he')) hlen rest
    have hfirst := entry_chars (h e List.mem_cons_self) e.1
      (Value.fieldsChars (es.map (fun e => (e.1, f e.2))) ++ rest)
    have hopen : ∀ s, dict read ('{' :: '"' :: s) =
        entry read ('"' :: s) >>= fun first =>
          moreEntries read first.2.length first.2 >>= fun more =>
            .ok (Dict.ofList (first.1 :: more.1), more.2) := fun _ => rfl
    rw [quoted_append] at hfirst
    simp only [List.map_cons, Value.chars, List.cons_append, List.append_assoc, quoted_append,
      hopen, hfirst, hmore, ok_bind, hd]

namespace RecordShape

variable {r : RecordShape δ α}

/-- The members fill the draft one after the other, each of them a field not given before. -/
inductive Fills (r : RecordShape δ α) : δ → List (String × Value) → δ → Prop where
  | done (draft : δ) : Fills r draft [] draft
  | field {draft next last : δ} {f : Field δ} {key : String} {v : Value}
      {fs : List (String × Value)} (hfield : r.fields.find? (fun f => f.name == key) = some f)
      (hnew : f.isGiven draft = false) (hread : ReadsAs (f.read draft) v next)
      (fills : Fills r next fs last) : Fills r draft ((key, v) :: fs) last

theorem Fills.of {draft last : δ} {key : String} {get : δ → Option β} {set : δ → β → δ}
    {read : Reader β} {v : Value} {b : β} {fs : List (String × Value)}
    (hfield : r.fields.find? (fun f => f.name == key) = some (.of key get set read))
    (hnew : (get draft).isSome = false) (hread : ReadsAs read v b)
    (fills : Fills r (set draft b) fs last) : Fills r draft ((key, v) :: fs) last :=
  .field hfield hnew (hread.map (set draft)) fills

theorem member_chars {draft next : δ} {f : Field δ} {key : String} {v : Value}
    (hfield : r.fields.find? (fun f => f.name == key) = some f)
    (hnew : f.isGiven draft = false) (hread : ReadsAs (f.read draft) v next) (rest : List Char) :
    r.member draft (quoted key ++ ':' :: (v.chars ++ rest)) = .ok (next, rest) := by
  simp only [quoted_append, member, skipSpace_cons (rfl : isSpace '"' = false), stringRest_quoted,
    ok_bind, hfield, hnew, Bool.false_eq_true, if_false, colon_cons, hread rest]

theorem moreMembers_chars {draft last : δ} {fs : List (String × Value)} {bound : Nat}
    (fills : Fills r draft fs last) (hbound : fs.length < bound) (rest : List Char) :
    r.moreMembers bound draft (Value.fieldsChars fs ++ rest) = .ok (last, rest) := by
  induction fills generalizing bound with
  | done draft =>
    obtain ⟨bound, rfl⟩ := Nat.exists_eq_succ_of_ne_zero (Nat.ne_zero_of_lt hbound)
    rfl
  | @field draft next last f key v fs hfield hnew hread fills ih =>
    obtain ⟨bound, rfl⟩ := Nat.exists_eq_succ_of_ne_zero (Nat.ne_zero_of_lt hbound)
    have hrest := ih (by simpa using hbound : fs.length < bound)
    simp only [Value.fieldsChars, List.cons_append, List.append_assoc, moreMembers,
      skipSpace_cons (rfl : isSpace ',' = false), member_chars hfield hnew hread, hrest, ok_bind]

theorem members_chars {last : δ} {fs : List (String × Value)} (fills : Fills r r.blank fs last)
    (rest : List Char) : ∃ s, (Value.object fs).chars ++ rest = '{' :: s ∧
      r.members s = .ok (last, rest) := by
  cases fills with
  | done => exact ⟨_, rfl, rfl⟩
  | @field _ next _ f key v fs hfield hnew hread fills =>
    have hfirst := member_chars hfield hnew hread (Value.fieldsChars fs ++ rest)
    have hmore := moreMembers_chars fills (length_lt_fieldsChars fs rest) rest
    refine ⟨quoted key ++ ':' :: (v.chars ++ (Value.fieldsChars fs ++ rest)), ?_, ?_⟩
    · simp [Value.chars]
    · have hopen : ∀ s, r.members ('"' :: s) = r.member r.blank ('"' :: s) >>= fun first =>
          r.moreMembers first.2.length first.1 first.2 := fun _ => rfl
      rw [quoted_append] at hfirst ⊢
      rw [hopen, hfirst, ok_bind]
      exact hmore

end RecordShape

theorem readsAs_record {r : RecordShape δ α} {fs : List (String × Value)} {last : δ} {a : α}
    (fills : r.Fills r.blank fs last) (hfinish : r.finish last = some a) :
    ReadsAs (record r) (.object fs) a := by
  intro rest
  obtain ⟨s, hs, hmembers⟩ := RecordShape.members_chars fills rest
  rw [hs]
  simp only [record, skipSpace_cons (rfl : isSpace '{' = false), hmembers, ok_bind,
    RecordShape.finished, hfinish]
  rfl

theorem ReadsAs.readFront {read : Reader α} {v : Value} {a : α} (h : ReadsAs read v a) :
    readFront read v.text = .ok a := by
  have hread := h []
  rw [List.append_nil] at hread
  rw [Json.readFront, Value.text, String.toList_ofList, hread]
  rfl

theorem ReadsAs.readWhole {read : Reader α} {v : Value} {a : α} (h : ReadsAs read v a) :
    readWhole read v.text = .ok a := by
  have hread := h []
  rw [List.append_nil] at hread
  rw [Json.readWhole, Value.text, String.toList_ofList, hread, ok_bind]
  rfl

/-- What is written for a value is read as that value. So a text that can be read at all may be
replaced by the one written for its value. -/
structure RoundTrips (read : Reader α) (json : α → Value) : Prop where
  readWhole_text : ∀ a, readWhole read (json a).text = .ok a
  readWhole_rewritten : ∀ text a, readWhole read text = .ok a →
    readWhole read (json a).text = readWhole read text

theorem RoundTrips.of_readsAs {read : Reader α} {json : α → Value}
    (h : ∀ a, ReadsAs read (json a) a) : RoundTrips read json where
  readWhole_text a := (h a).readWhole
  readWhole_rewritten := by
    intro text a htext
    rw [htext]
    exact (h a).readWhole

end SegmentRouting.Json
