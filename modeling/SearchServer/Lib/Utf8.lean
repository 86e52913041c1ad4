import SearchServer.Lib.Text

/-!
# UTF-8

A byte string is UTF-8 when it is the encoding of a list of characters (`ByteArray.IsValidUTF8`). The
first byte of a character can be told from the others (`UInt8.IsUTF8FirstByte`), so a text can be cut
at a position exactly when what comes after starts with such a byte, or is empty (`Boundary`).

**Theorem (`utf8_middle_iff`).** A piece of a text is UTF-8 exactly when both of its ends are
boundaries.
-/

namespace SearchServer

def Utf8 (s : Bytes) : Prop := s.toByteArray.IsValidUTF8

instance (s : Bytes) : Decidable (Utf8 s) :=
  inferInstanceAs (Decidable s.toByteArray.IsValidUTF8)

/-- The bytes do not start in the middle of a character. -/
def Boundary (s : Bytes) : Prop := ∀ x ∈ s.head?, UInt8.IsUTF8FirstByte x

instance (s : Bytes) : Decidable (Boundary s) :=
  inferInstanceAs (Decidable (∀ x ∈ s.head?, UInt8.IsUTF8FirstByte x))

theorem boundary_nil : Boundary [] := by simp [Boundary]

theorem boundary_cons {x : UInt8} {s : Bytes} : Boundary (x :: s) ↔ x.IsUTF8FirstByte := by
  simp [Boundary]

theorem utf8_nil : Utf8 [] := ByteArray.isValidUTF8_empty

theorem Utf8.append {a b : Bytes} (ha : Utf8 a) (hb : Utf8 b) : Utf8 (a ++ b) := by
  unfold Utf8
  rw [List.toByteArray_append]
  exact ByteArray.IsValidUTF8.append ha hb

theorem Utf8.boundary {s : Bytes} (h : Utf8 s) : Boundary s := by
  cases s with
  | nil => exact boundary_nil
  | cons x s =>
    have hfirst := ByteArray.IsValidUTF8.isUTF8FirstByte_getElem_zero h (by simp)
    rw [boundary_cons]
    simpa using hfirst

theorem utf8_encode (chars : List Char) : Utf8 (chars.flatMap String.utf8EncodeChar) := ⟨chars, rfl⟩

/-! ## Cutting a text -/

/-- The front of a text ends where a character ends. -/
theorem Utf8.left_iff {a b : Bytes} (h : Utf8 (a ++ b)) : Utf8 a ↔ Boundary b := by
  set s : String := ⟨(a ++ b).toByteArray, h⟩
  have hend : s.rawEndPos.byteIdx = a.length + b.length := by
    simp [s, String.rawEndPos, String.utf8ByteSize]
  have hfront : s.toByteArray.extract 0 a.length = a.toByteArray := by
    show (a ++ b).toByteArray.extract 0 a.length = _
    rw [List.toByteArray_append]
    exact ByteArray.extract_append_eq_left (by simp)
  have hvalid : (String.Pos.Raw.mk a.length).IsValid s ↔ Utf8 a := by
    rw [String.Pos.Raw.isValid_iff_isValidUTF8_extract_zero, hfront, and_iff_right]
    · rfl
    · rw [String.Pos.Raw.le_iff, hend]
      exact Nat.le_add_right _ _
  rw [← hvalid, String.Pos.Raw.isValid_iff_isUTF8FirstByte]
  cases b with
  | nil =>
    refine iff_of_true (.inl ?_) boundary_nil
    rw [String.Pos.Raw.ext_iff, hend]
    simp
  | cons x b =>
    have hlt : String.Pos.Raw.mk a.length < s.rawEndPos := by
      rw [String.Pos.Raw.lt_iff, hend]
      simp
    have hne : String.Pos.Raw.mk a.length ≠ s.rawEndPos := by
      intro heq
      rw [String.Pos.Raw.ext_iff, hend] at heq
      simp at heq
    have hbyte : s.getUTF8Byte ⟨a.length⟩ hlt = x := by
      have hbound : a.length < (a ++ x :: b).toByteArray.size := by simp
      show (a ++ x :: b).toByteArray[a.length] = x
      simp [List.toByteArray_append, ByteArray.getElem_append_right]
    rw [boundary_cons, or_iff_right hne, ← hbyte]
    exact ⟨fun hfirst => hfirst.2, fun hfirst => ⟨hlt, hfirst⟩⟩

/-- What is left of a text after whole characters. -/
theorem Utf8.of_append {a b : Bytes} (h : Utf8 (a ++ b)) (ha : Utf8 a) : Utf8 b := by
  unfold Utf8 at h ha ⊢
  rw [List.toByteArray_append] at h
  obtain ⟨chars, hchars⟩ := ha
  rw [hchars] at h
  clear hchars
  induction chars with
  | nil => simpa using h
  | cons c chars ih =>
    rw [← List.singleton_append, List.utf8Encode_append, ByteArray.append_assoc,
      ByteArray.isValidUTF8_utf8Encode_singleton_append_iff] at h
    exact ih h

theorem Utf8.right_iff {a b : Bytes} (h : Utf8 (a ++ b)) : Utf8 b ↔ Boundary b :=
  ⟨Utf8.boundary, fun hb => h.of_append (h.left_iff.mpr hb)⟩

/-- **A piece of a text.** -/
theorem utf8_middle_iff {a b c : Bytes} (h : Utf8 (a ++ (b ++ c))) (hb : b ≠ []) :
    Utf8 b ↔ Boundary (b ++ c) ∧ Boundary c := by
  constructor
  · intro hpiece
    have hfirst : Boundary (b ++ c) := by
      obtain ⟨x, b, rfl⟩ := List.exists_cons_of_ne_nil hb
      rw [List.cons_append, boundary_cons]
      exact boundary_cons.mp hpiece.boundary
    exact ⟨hfirst, (h.right_iff.mpr hfirst).left_iff.mp hpiece⟩
  · rintro ⟨hfirst, hend⟩
    exact (h.right_iff.mpr hfirst).left_iff.mpr hend

/-! ## ASCII -/

theorem isUTF8FirstByte_of_lt {x : UInt8} (hx : x < 128) : x.IsUTF8FirstByte := by
  refine .inl ?_
  revert hx
  revert x
  decide +kernel

theorem utf8_singleton {x : UInt8} (hx : x < 128) : Utf8 [x] := by
  revert hx
  revert x
  decide +kernel

theorem utf8_of_ascii {s : Bytes} (h : ∀ x ∈ s, x < 128) : Utf8 s := by
  induction s with
  | nil => exact utf8_nil
  | cons x s ih =>
    obtain ⟨hx, hs⟩ := List.forall_mem_cons.mp h
    exact (utf8_singleton hx).append (ih hs)

theorem ascii_append_iff {s b : Bytes} (h : ∀ x ∈ s, x < 128) : Utf8 (s ++ b) ↔ Utf8 b :=
  ⟨fun hsb => hsb.of_append (utf8_of_ascii h), fun hb => (utf8_of_ascii h).append hb⟩

theorem append_ascii_iff {a s : Bytes} (h : ∀ x ∈ s, x < 128) : Utf8 (a ++ s) ↔ Utf8 a := by
  refine ⟨fun has => has.left_iff.mpr ?_, fun ha => ha.append (utf8_of_ascii h)⟩
  exact (utf8_of_ascii h).boundary

/-- A text can be cut on both sides of an ASCII character. -/
theorem utf8_ascii_iff {a b : Bytes} {x : UInt8} (hx : x < 128) :
    Utf8 (a ++ x :: b) ↔ Utf8 a ∧ Utf8 b := by
  constructor
  · intro h
    have ha : Utf8 a := h.left_iff.mpr (boundary_cons.mpr (isUTF8FirstByte_of_lt hx))
    exact ⟨ha, (h.of_append ha).of_append (a := [x]) (utf8_singleton hx)⟩
  · rintro ⟨ha, hb⟩
    exact ha.append ((utf8_singleton hx).append hb)

end SearchServer
