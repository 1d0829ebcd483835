import FlintDB.Lib.LittleEndian

set_option autoImplicit false

namespace FlintDB.Lib

def IsAscii (text : Bytes) : Prop := ∀ c ∈ text, c < 128

instance (text : Bytes) : Decidable (IsAscii text) := decidable_of_bool (text.all fun c => c < 128) (by simp [IsAscii])

theorem IsAscii.append {front back : Bytes} (left : IsAscii front) (right : IsAscii back) : IsAscii (front ++ back) :=
  List.forall_mem_append.mpr ⟨left, right⟩

def IsUtf8 (text : Bytes) : Prop := ∃ chars : List Char, text = chars.flatMap String.utf8EncodeChar

theorem isUtf8_iff (text : Bytes) : IsUtf8 text ↔ text.toByteArray.IsValidUTF8 := by
  constructor
  · rintro ⟨chars, rfl⟩
    exact ⟨chars, rfl⟩
  · rintro ⟨chars, same⟩
    have lists := congrArg (fun bytes => bytes.data.toList) same
    exact ⟨chars, by simpa [List.utf8Encode] using lists⟩

instance (text : Bytes) : Decidable (IsUtf8 text) := decidable_of_iff' _ (isUtf8_iff text)

theorem utf8EncodeChar_cases (c : Char) :
    (∃ byte, byte < 128 ∧ String.utf8EncodeChar c = [byte]) ∨ ∀ byte ∈ String.utf8EncodeChar c, 128 ≤ byte := by
  fun_cases String.utf8EncodeChar c with
  | case1 v short =>
    refine .inl ⟨_, ?_, rfl⟩
    rw [UInt8.lt_iff_toNat_lt, UInt8.toNat_ofNat']
    exact Nat.lt_of_le_of_lt (Nat.mod_le _ _) (Nat.lt_succ_of_le short)
  | case2 | case3 | case4 =>
    right
    simp only [List.forall_mem_cons, UInt8.le_iff_toNat_le, UInt8.toNat_ofNat']
    simp
    omega

theorem utf8EncodeChar_ofUInt8 {byte : UInt8} (ascii : byte < 128) : String.utf8EncodeChar (Char.ofUInt8 byte) = [byte] := by
  have short : byte.toNat ≤ 127 := Nat.le_of_lt_succ (UInt8.lt_iff_toNat_lt.mp ascii)
  have value : (Char.ofUInt8 byte).val.toNat = byte.toNat := UInt8.toNat_toUInt32 byte
  simp [String.utf8EncodeChar, value, short]

theorem isUtf8_nil : IsUtf8 [] := ⟨[], rfl⟩

theorem IsUtf8.append {front back : Bytes} (left : IsUtf8 front) (right : IsUtf8 back) : IsUtf8 (front ++ back) := by
  obtain ⟨chars, rfl⟩ := left
  obtain ⟨chars', rfl⟩ := right
  exact ⟨chars ++ chars', List.flatMap_append.symm⟩

theorem IsAscii.isUtf8 {text : Bytes} (ascii : IsAscii text) : IsUtf8 text := by
  refine ⟨text.map Char.ofUInt8, ?_⟩
  induction text with
  | nil => rfl
  | cons byte text ih =>
    obtain ⟨first, others⟩ := List.forall_mem_cons.mp ascii
    rw [List.map_cons, List.flatMap_cons, utf8EncodeChar_ofUInt8 first, ← ih others, List.singleton_append]

-- No byte of a longer character is one of ASCII: around a byte of ASCII the text can be cut.
theorem isUtf8_middle {c : UInt8} (ascii : c < 128) {front back : Bytes} :
    IsUtf8 (front ++ c :: back) ↔ IsUtf8 front ∧ IsUtf8 back := by
  constructor
  · rintro ⟨chars, same⟩
    induction chars generalizing front with
    | nil => simp at same
    | cons char chars ih =>
      rw [List.flatMap_cons] at same
      rcases List.append_eq_append_iff.mp same with ⟨more, encoded, rest⟩ | ⟨more, rfl, rest⟩
      · cases more with
        | nil =>
          rw [List.append_nil] at encoded
          exact ⟨⟨[char], by simp [encoded]⟩, (@ih [] rest).2⟩
        | cons d more =>
          obtain ⟨rfl, rfl⟩ := List.cons.inj rest
          rcases utf8EncodeChar_cases char with ⟨byte, -, alone⟩ | beyond
          · rcases List.append_eq_singleton_iff.mp (encoded.symm.trans alone) with ⟨rfl, single⟩ | ⟨-, single⟩
            · cases single
              exact ⟨isUtf8_nil, chars, rfl⟩
            · cases single
          · have isThere : c ∈ String.utf8EncodeChar char := by simp [encoded]
            exact absurd (beyond c isThere) (UInt8.not_le.mpr ascii)
      · obtain ⟨left, right⟩ := ih rest.symm
        exact ⟨.append ⟨[char], by simp⟩ left, right⟩
  · rintro ⟨left, right⟩
    have here : IsUtf8 [c] := IsAscii.isUtf8 (by simpa [IsAscii] using ascii)
    exact left.append (here.append right)

theorem isUtf8_cons {c : UInt8} (ascii : c < 128) {back : Bytes} : IsUtf8 (c :: back) ↔ IsUtf8 back :=
  (@isUtf8_middle c ascii [] back).trans (and_iff_right isUtf8_nil)

theorem IsUtf8.of_ascii_append {front back : Bytes} (ascii : IsAscii front) (utf8 : IsUtf8 (front ++ back)) :
    IsUtf8 back := by
  induction front with
  | nil => exact utf8
  | cons c front ih =>
    obtain ⟨first, others⟩ := List.forall_mem_cons.mp ascii
    exact ih others ((isUtf8_cons first).mp utf8)

theorem isAscii_takeWhile {p : UInt8 → Bool} (ascii : ∀ c, p c = true → c < 128) (text : Bytes) :
    IsAscii (text.takeWhile p) := fun c isThere => ascii c (List.all_eq_true.mp List.all_takeWhile c isThere)

theorem IsUtf8.dropWhile {p : UInt8 → Bool} (ascii : ∀ c, p c = true → c < 128) {text : Bytes} (utf8 : IsUtf8 text) :
    IsUtf8 (text.dropWhile p) := by
  rw [← @List.takeWhile_append_dropWhile _ p text] at utf8
  exact utf8.of_ascii_append (isAscii_takeWhile ascii text)

theorem IsUtf8.flatMap {text : Bytes} (utf8 : IsUtf8 text) {f : UInt8 → Bytes} (ascii : ∀ c < 128, IsAscii (f c))
    (others : ∀ c, 128 ≤ c → f c = [c]) : IsUtf8 (text.flatMap f) := by
  obtain ⟨chars, rfl⟩ := utf8
  induction chars with
  | nil => exact isUtf8_nil
  | cons char chars ih =>
    rw [List.flatMap_cons, List.flatMap_append]
    refine IsUtf8.append ?_ ih
    rcases utf8EncodeChar_cases char with ⟨byte, short, alone⟩ | beyond
    · rw [alone, List.flatMap_singleton]
      exact (ascii byte short).isUtf8
    · have unchanged : (String.utf8EncodeChar char).flatMap f = (String.utf8EncodeChar char).flatMap fun c => [c] :=
        List.flatMap_congr fun c isThere => others c (beyond c isThere)
      exact ⟨[char], by simp [unchanged]⟩

end FlintDB.Lib
