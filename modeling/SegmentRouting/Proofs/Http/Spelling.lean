import Mathlib.Data.List.TakeWhile
import SegmentRouting.Http.Target

/-! How a table name can stand in the path of a target. Every name can: as the
percent-encoded bytes of its UTF-8 form at least. -/

namespace SegmentRouting.Http

theorem splitSlash_ne_nil (s : List Char) : splitSlash s ≠ [] := by
  cases s with
  | nil => simp [splitSlash]
  | cons c s =>
    rw [splitSlash]
    split
    · simp
    · split <;> simp

theorem splitSlash_append {a : List Char} (h : '/' ∉ a) (s : List Char) :
    splitSlash (a ++ '/' :: s) = a :: splitSlash s := by
  induction a with
  | nil =>
    obtain ⟨piece, pieces, hs⟩ := List.exists_cons_of_ne_nil (splitSlash_ne_nil s)
    simp [splitSlash, hs]
  | cons c a ih =>
    have hc : ¬ c = '/' := fun hc => h (hc ▸ List.mem_cons_self)
    have ha := ih fun ha => h (List.mem_cons_of_mem c ha)
    simp [splitSlash, ha, hc]

theorem splitSlash_of_not_mem {a : List Char} (h : '/' ∉ a) : splitSlash a = [a] := by
  induction a with
  | nil => rfl
  | cons c a ih =>
    have hc : ¬ c = '/' := fun hc => h (hc ▸ List.mem_cons_self)
    have ha := ih fun ha => h (List.mem_cons_of_mem c ha)
    simp [splitSlash, ha, hc]

/-- No character of the text ends a piece of a path. -/
def IsPiece (piece : String) : Prop := ∀ c ∈ piece.toList, c ≠ '/' ∧ isPathEnd c = false

theorem isPiece_of_all {piece : String}
    (h : (piece.toList.all fun c => c != '/' && !isPathEnd c) = true) : IsPiece piece := by
  intro c hc
  simpa using List.all_eq_true.mp h c hc

theorem IsPiece.not_mem_slash {piece : String} (h : IsPiece piece) : '/' ∉ piece.toList :=
  fun hc => (h _ hc).1 rfl

/-- The path of the pieces, with a slash before each. -/
def pathText (pieces : List String) : List Char := pieces.flatMap (fun piece => '/' :: piece.toList)

theorem splitSlash_pathText {pieces : List String} (h : ∀ piece ∈ pieces, IsPiece piece)
    {a : List Char} (ha : '/' ∉ a) :
    splitSlash (a ++ pathText pieces) = a :: pieces.map String.toList := by
  induction pieces generalizing a with
  | nil => simp [pathText, splitSlash_of_not_mem ha]
  | cons piece pieces ih =>
    have hpiece := h piece List.mem_cons_self
    have hrest := ih (fun p hp => h p (List.mem_cons_of_mem piece hp)) hpiece.not_mem_slash
    rw [pathText, List.flatMap_cons, List.cons_append, splitSlash_append ha]
    exact congrArg (a :: ·) hrest

theorem pathOf_pathText {pieces : List String} (h : ∀ piece ∈ pieces, IsPiece piece)
    (hne : pieces ≠ []) : pathOf (pathText pieces) = pathText pieces := by
  obtain ⟨piece, rest, rfl⟩ := List.exists_cons_of_ne_nil hne
  have hall : ∀ c ∈ pathText (piece :: rest), (!isPathEnd c) = true := by
    intro c hc
    obtain ⟨p, hp, hmem⟩ := List.mem_flatMap.mp hc
    rcases List.mem_cons.mp hmem with rfl | hmem
    · rfl
    · rw [(h p hp c hmem).2]
      rfl
  exact List.takeWhile_eq_self_iff.mpr hall

theorem pieces_pathText {pieces : List String} (h : ∀ piece ∈ pieces, IsPiece piece)
    (hne : pieces ≠ []) :
    (splitSlash (pathOf (pathText pieces))).map String.ofList = "" :: pieces := by
  have hsplit := splitSlash_pathText h (a := []) List.not_mem_nil
  rw [List.nil_append] at hsplit
  rw [pathOf_pathText h hne, hsplit, List.map_cons, List.map_map]
  have hid : String.ofList ∘ String.toList = id := funext fun _ => String.ofList_toList
  rw [hid, List.map_id]

/-- A piece of a path that decodes to the name. -/
structure Spells (raw name : String) : Prop where
  isPiece : IsPiece raw
  decodes : percentDecode? raw = some name

namespace Spells

variable {raw name : String}

theorem ne_empty (h : Spells raw name) (hname : name ≠ "") : raw ≠ "" := by
  rintro rfl
  have hdecodes : percentDecode? "" = some "" := by decide +kernel
  exact hname (Option.some.inj (h.decodes.symm.trans hdecodes))

theorem ofTarget?_externalView (h : Spells raw name) :
    Route.ofTarget? ("/tables/" ++ raw ++ "/external-view") = some (.externalView raw) := by
  have htarget : ("/tables/" ++ raw ++ "/external-view").toList =
      pathText ["tables", raw, "external-view"] := by simp [pathText]
  have hpieces : ∀ piece ∈ ["tables", raw, "external-view"], IsPiece piece := by
    simp only [List.forall_mem_cons]
    exact ⟨isPiece_of_all rfl, h.isPiece, isPiece_of_all rfl, List.forall_mem_nil _⟩
  rw [Route.ofTarget?, htarget, Route.ofPath?, pieces_pathText hpieces (by simp)]
  simp

theorem ofTarget?_routingTables (h : Spells raw name) (hname : name ≠ "") :
    Route.ofTarget? ("/debug/routing-tables/" ++ raw) = some (.routingTables raw) := by
  have htarget : ("/debug/routing-tables/" ++ raw).toList =
      pathText ["debug", "routing-tables", raw] := by simp [pathText]
  have hpieces : ∀ piece ∈ ["debug", "routing-tables", raw], IsPiece piece := by
    simp only [List.forall_mem_cons]
    exact ⟨isPiece_of_all rfl, isPiece_of_all rfl, h.isPiece, List.forall_mem_nil _⟩
  rw [Route.ofTarget?, htarget, Route.ofPath?, pieces_pathText hpieces (by simp)]
  simp [h.ne_empty hname]

end Spells

theorem toList_byteArray (b : ByteArray) : b.toList = b.data.toList := by
  have hloop : ∀ n i r, b.size - i = n → ByteArray.toList.loop b i r =
      r.reverse ++ b.data.toList.drop i := by
    intro n
    induction n with
    | zero =>
      intro i r hi
      have hend : b.data.toList.length ≤ i := by
        change b.size ≤ i
        omega
      rw [ByteArray.toList.loop.eq_def, if_neg (by omega), List.drop_of_length_le hend,
        List.append_nil]
    | succ n ih =>
      intro i r hi
      have hlt : i < b.data.toList.length := by
        change i < b.size
        omega
      have hget : b.get! i = b.data.toList[i] := getElem!_pos b.data i hlt
      rw [ByteArray.toList.loop.eq_def, if_pos (by omega), ih (i + 1) _ (by omega),
        List.drop_eq_getElem_cons hlt, hget]
      simp
  exact hloop _ 0 [] rfl

theorem bytes_ofList (cs : List Char) :
    (String.ofList cs).toUTF8.toList = cs.flatMap String.utf8EncodeChar := by
  rw [String.toUTF8_eq_toByteArray, String.toByteArray_ofList, toList_byteArray]
  exact congrArg Array.toList List.data_toByteArray

/-- A percent sign and two hexadecimal digits. -/
def encodeByte (b : UInt8) : List Char :=
  ['%', (b.toNat / 16).digitChar, (b.toNat % 16).digitChar]

def percentEncode (name : String) : String := String.ofList (name.toUTF8.toList.flatMap encodeByte)

theorem utf8EncodeChar_digitChar : ∀ d < 16,
    String.utf8EncodeChar d.digitChar = [d.digitChar.val.toUInt8] := by decide

theorem hexPair?_digitChar : ∀ n < 256,
    hexPair? (n / 16).digitChar.val.toUInt8 (n % 16).digitChar.val.toUInt8 =
      some (UInt8.ofNat n) := by decide +kernel

theorem percentBytes_encodeByte (b : UInt8) (rest : List UInt8) :
    percentBytes ((encodeByte b).flatMap String.utf8EncodeChar ++ rest) =
      b :: percentBytes rest := by
  have hb := b.toNat_lt
  have hpercent : String.utf8EncodeChar '%' = [37] := by decide
  simp only [encodeByte, List.flatMap_cons, List.flatMap_nil, hpercent,
    utf8EncodeChar_digitChar (b.toNat / 16) (by omega),
    utf8EncodeChar_digitChar (b.toNat % 16) (by omega), List.append_nil, List.cons_append,
    List.nil_append, percentBytes, hexPair?_digitChar b.toNat hb, UInt8.ofNat_toNat]

theorem percentBytes_flatMap_encodeByte (bytes : List UInt8) :
    percentBytes ((bytes.flatMap encodeByte).flatMap String.utf8EncodeChar) = bytes := by
  induction bytes with
  | nil => rfl
  | cons b bytes ih =>
    rw [List.flatMap_cons, List.flatMap_append, percentBytes_encodeByte, ih]

theorem percentDecode?_percentEncode (name : String) :
    percentDecode? (percentEncode name) = some name := by
  have hbytes : (⟨name.toUTF8.toList.toArray⟩ : ByteArray) = name.toByteArray := by
    rw [toList_byteArray, Array.toArray_toList, String.toUTF8_eq_toByteArray]
  rw [percentDecode?, percentEncode, bytes_ofList, percentBytes_flatMap_encodeByte, hbytes,
    String.fromUTF8?, dif_pos name.isValidUTF8]
  rfl

theorem isPathSafe_digitChar : ∀ d < 16,
    d.digitChar ≠ '/' ∧ isPathEnd d.digitChar = false := by decide

theorem spells_percentEncode (name : String) : Spells (percentEncode name) name where
  decodes := percentDecode?_percentEncode name
  isPiece := by
    intro c hc
    rw [percentEncode, String.toList_ofList] at hc
    obtain ⟨b, -, hc⟩ := List.mem_flatMap.mp hc
    have hb := b.toNat_lt
    simp only [encodeByte, List.mem_cons, List.not_mem_nil, or_false] at hc
    rcases hc with rfl | rfl | rfl
    · decide
    · exact isPathSafe_digitChar _ (by omega)
    · exact isPathSafe_digitChar _ (by omega)

end SegmentRouting.Http
