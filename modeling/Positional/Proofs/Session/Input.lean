/-
  Positional.Proofs.Session.Input — lines of text as bytes.

  The byte that ends a line encodes the newline and is part of no other character
  (`newline_mem_utf8EncodeChar`). So bytes are cut where the text was, and texts without newlines, typed
  one by one, are the lines of the input (`ofBytes_typed`).
-/
import Positional.Session.Input

namespace Positional

/-- The input that has each of the texts on a line of its own. -/
def typed (ts : List Text) : ByteArray := (String.ofList (ts.flatMap (· ++ ['\n']))).toUTF8

/-! ## (1) The bytes of a text -/

theorem toList_eq_data (bytes : ByteArray) : bytes.toList = bytes.data.toList := by
  have hloop (i : Nat) (read : List UInt8) :
      ByteArray.toList.loop bytes i read = read.reverse ++ bytes.data.toList.drop i := by
    induction i, read using ByteArray.toList.loop.induct bytes with
    | case1 i read hi ih =>
      have hbyte : bytes.get! i = bytes.data.toList[i] := getElem!_pos bytes.data i hi
      rw [ByteArray.toList.loop, if_pos hi, ih, List.drop_eq_getElem_cons hi, hbyte, List.reverse_cons,
        List.append_assoc]
      rfl
    | case2 i read hi =>
      rw [ByteArray.toList.loop, if_neg hi, List.drop_of_length_le (Nat.not_lt.mp hi), List.append_nil]
  exact hloop 0 []

/-- The bytes of a character beyond ASCII are all at least 128. -/
theorem newline_mem_utf8EncodeChar {c : Char} : 10 ∈ String.utf8EncodeChar c ↔ c = '\n' := by
  have hbyte {n : Nat} (hn : n < 256) : (10 : UInt8) = UInt8.ofNat n ↔ n = 10 := by
    rw [← UInt8.toNat_inj, UInt8.toNat_ofNat_of_lt' hn, eq_comm]
    rfl
  have hnewline : c = '\n' ↔ c.val.toNat = 10 := by
    rw [← Char.val_inj, ← UInt32.toNat_inj]
    rfl
  rw [hnewline]
  fun_cases String.utf8EncodeChar c with
  | case1 v _ => rw [List.mem_singleton, hbyte (by omega)]
  | case2 v _ _ =>
    simp only [List.mem_cons, List.not_mem_nil, or_false]
    rw [hbyte (by omega), hbyte (by omega)]
    omega
  | case3 v _ _ _ =>
    simp only [List.mem_cons, List.not_mem_nil, or_false]
    rw [hbyte (by omega), hbyte (by omega), hbyte (by omega)]
    omega
  | case4 v _ _ _ =>
    simp only [List.mem_cons, List.not_mem_nil, or_false]
    rw [hbyte (by omega), hbyte (by omega), hbyte (by omega), hbyte (by omega)]
    omega

/-- The bytes of a text. -/
def utf8 (t : Text) : List UInt8 := t.flatMap String.utf8EncodeChar

theorem newline_notMem_utf8 {t : Text} (h : '\n' ∉ t) : 10 ∉ utf8 t := by
  intro hm
  obtain ⟨c, hc, hbyte⟩ := List.mem_flatMap.mp hm
  exact h (newline_mem_utf8EncodeChar.mp hbyte ▸ hc)

theorem decodeLine_utf8 (t : Text) : decodeLine (utf8 t) = some t := by
  have hbytes : (⟨(utf8 t).toArray⟩ : ByteArray) = t.utf8Encode := by
    rw [ByteArray.ext_iff, ← Array.toList_inj]
    exact List.toList_data_toByteArray.symm
  rw [decodeLine, hbytes, String.fromUTF8?, dif_pos ByteArray.isValidUTF8_utf8Encode, Option.map_some]
  exact congrArg some String.toList_ofList

/-! ## (2) Lines -/

theorem toList_typed (ts : List Text) : (typed ts).toList = ts.flatMap fun t => utf8 t ++ [10] := by
  have hbytes : (typed ts).toList = utf8 (ts.flatMap (· ++ ['\n'])) := by
    rw [toList_eq_data, typed, String.toUTF8, String.toByteArray_ofList]
    exact List.toList_data_toByteArray
  have hline (t : Text) : (t ++ ['\n']).flatMap String.utf8EncodeChar = utf8 t ++ [10] := List.flatMap_append
  rw [hbytes, utf8, List.flatMap_assoc]
  simp only [hline]

theorem lineBytes_typed {ts : List Text} (h : ∀ t ∈ ts, '\n' ∉ t) : lineBytes (typed ts) = ts.map utf8 := by
  have hpieces : (typed ts).toList.splitOnP (· == 10) = ts.map utf8 ++ [[]] := by
    rw [toList_typed]
    induction ts with
    | nil => rfl
    | cons t ts ih =>
      have ht : ∀ byte ∈ utf8 t, (byte == 10) = false := fun byte hbyte => by
        rw [beq_eq_false_iff_ne]
        exact fun he => newline_notMem_utf8 (h t List.mem_cons_self) (he ▸ hbyte)
      rw [List.flatMap_cons, List.append_assoc, List.singleton_append, List.splitOnP_append_cons _ _ rfl,
        List.splitOnP_eq_singleton ht, ih fun u hu => h u (List.mem_cons_of_mem t hu)]
      rfl
  rw [lineBytes, hpieces]
  simp only [List.getLast?_append, List.getLast?_singleton, Option.some_or, if_true, List.dropLast_concat]

/-- Texts are typed as lines, if they have no newlines. -/
theorem ofBytes_typed (chance : Nat → Chance) {ts : List Text} (h : ∀ t ∈ ts, '\n' ∉ t) :
    Line.ofBytes chance (typed ts) = ts.zipIdx.map fun (t, index) => ⟨some t, chance index⟩ := by
  rw [Line.ofBytes, lineBytes_typed h, List.zipIdx_map, List.map_map]
  refine List.map_congr_left fun (t, index) _ => ?_
  simp only [Function.comp_apply, Prod.map, decodeLine_utf8, id]

end Positional
