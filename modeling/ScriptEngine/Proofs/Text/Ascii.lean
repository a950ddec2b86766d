import ScriptEngine.Bytes

/-!
# Bytes of texts

A text of ASCII characters has one byte for each character, and the bytes of texts written one behind the
other are written one behind the other.

* `Bytes.ofString_append`    the bytes of two texts;
* `Bytes.ofString_ofList`    the bytes of ASCII characters;
* `Bytes.ofString_toLatin`   the text of ASCII bytes has these bytes.
-/

namespace ScriptEngine.Bytes

theorem toList_loop (bs : ByteArray) (i : Nat) (r : List UInt8) :
    ByteArray.toList.loop bs i r = r.reverse ++ bs.data.toList.drop i := by
  fun_induction ByteArray.toList.loop bs i r with
  | case1 i r hlt ih =>
    have hlen : i < bs.data.toList.length := by simpa using hlt
    have hget : bs.get! i = bs.data.toList[i] := by
      show bs.data[i]! = _
      rw [getElem!_pos bs.data i hlt, Array.getElem_toList]
    rw [ih, List.drop_eq_getElem_cons hlen, hget, List.reverse_cons, List.append_assoc]
    rfl
  | case2 i r hlt =>
    have hlen : bs.data.toList.length ≤ i := by simpa using Nat.le_of_not_lt hlt
    rw [List.drop_eq_nil_of_le hlen, List.append_nil]

theorem ofString_eq (s : String) : ofString s = s.toByteArray.data.toList := by
  show s.toUTF8.toList = _
  rw [String.toUTF8_eq_toByteArray, ByteArray.toList, toList_loop]
  rfl

theorem ofString_append (s t : String) : ofString (s ++ t) = ofString s ++ ofString t := by
  rw [ofString_eq, ofString_eq, ofString_eq, String.toByteArray_append, ByteArray.data_append,
    Array.toList_append]

theorem ofString_ofList {cs : List Char} (h : ∀ c ∈ cs, c.toNat < 128) :
    ofString (String.ofList cs) = cs.map Byte.ofChar := by
  rw [ofString_eq, String.toByteArray_ofList]
  induction cs with
  | nil => rfl
  | cons c cs ih =>
    have hc : c.toNat < 128 := h c List.mem_cons_self
    have hsize : c.utf8Size = 1 := by
      rw [Char.utf8Size_eq_one_iff, UInt32.le_iff_toNat_le]
      exact Nat.le_of_lt_succ hc
    rw [List.utf8Encode_cons, ByteArray.data_append, Array.toList_append,
      ih fun d hd => h d (List.mem_cons_of_mem _ hd), List.utf8Encode_singleton, List.data_toByteArray,
      String.utf8EncodeChar_eq_singleton hsize]
    rfl

theorem ofString_toLatin {bs : Bytes} (h : ∀ b ∈ bs, b.toNat < 128) : ofString (toLatin bs) = bs := by
  have hchar {b : UInt8} (hb : b.toNat < 128) : (Char.ofNat b.toNat).toNat = b.toNat := by
    have hvalid : b.toNat.isValidChar := .inl (by omega)
    rw [Char.ofNat, dif_pos hvalid]
    rfl
  rw [toLatin, ofString_ofList, List.map_map]
  · refine (List.map_congr_left fun b hb => ?_).trans (List.map_id bs)
    show (Char.ofNat b.toNat).toNat.toUInt8 = b
    rw [hchar (h b hb)]
    exact UInt8.ofNat_toNat
  · intro c hc
    obtain ⟨b, hb, rfl⟩ := List.mem_map.mp hc
    rw [hchar (h b hb)]
    exact h b hb

end ScriptEngine.Bytes
