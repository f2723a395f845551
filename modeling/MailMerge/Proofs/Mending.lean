import MailMerge.Text.Utf8

/-!
# Bytes That Are No Text

Where no character stands, one replacement character is read for several bytes at once, if
these are the beginning of a character that breaks off. The reader decides this from a few
ranges of bytes. Here it is said without them: what is given up is the longest part that is a
beginning of some character, or a single byte if there is none.

A character of two bytes that breaks off is a single byte, so only the longer ones matter. Of
these the first two bytes tell whether any character begins so, and after that a third one may
be any that can go on a character. A character is put together from such bytes by its code.

## Theorems

* `canBegin_of_encode`: What the reader's ranges have to admit.
* `exists_encode_three`, `exists_encode_four`: What they admit begins a character.
* `lossy_of_charAt?_eq_none`: What is read where no character stands.
-/

namespace MailMerge

namespace Text

/-! ### Ranges of bytes -/

theorem canBegin_iff_toNat {first second : UInt8} : canBegin first second = true ↔
    (first.toNat = 0xE0 ∧ 0xA0 ≤ second.toNat ∨ first.toNat = 0xED ∧ second.toNat ≤ 0x9F ∨
      first.toNat = 0xF0 ∧ 0x90 ≤ second.toNat ∨ first.toNat = 0xF4 ∧ second.toNat ≤ 0x8F ∨
      0xE1 ≤ first.toNat ∧ first.toNat ≤ 0xF3 ∧ first.toNat ≠ 0xED ∧ first.toNat ≠ 0xF0) ∧
    0x80 ≤ second.toNat ∧ second.toNat ≤ 0xBF := by
  simp only [canBegin, isFurther, ← UInt8.toNat_inj, UInt8.le_iff_toNat_le, UInt8.reduceToNat]
  repeat' split
  all_goals
    simp only [Bool.and_eq_true, decide_eq_true_eq]
    omega

theorem isFurther_iff_toNat {x : UInt8} :
    isFurther x = true ↔ 0x80 ≤ x.toNat ∧ x.toNat ≤ 0xBF := by
  simp only [isFurther, Bool.and_eq_true, decide_eq_true_eq, UInt8.le_iff_toNat_le,
    UInt8.reduceToNat]

/-! ### Characters by their codes -/

theorem encode_of_le {c : Char} (low : 0x7FF < c.val.toNat) (high : c.val.toNat ≤ 0xFFFF) :
    String.utf8EncodeChar c = [UInt8.ofNat (c.val.toNat / 4096 % 16 + 224),
      UInt8.ofNat (c.val.toNat / 64 % 64 + 128), UInt8.ofNat (c.val.toNat % 64 + 128)] := by
  unfold String.utf8EncodeChar
  dsimp only
  rw [if_neg (by omega), if_neg (by omega), if_pos high]

theorem encode_of_lt {c : Char} (low : 0xFFFF < c.val.toNat) :
    String.utf8EncodeChar c = [UInt8.ofNat (c.val.toNat / 262144 % 8 + 240),
      UInt8.ofNat (c.val.toNat / 4096 % 64 + 128), UInt8.ofNat (c.val.toNat / 64 % 64 + 128),
      UInt8.ofNat (c.val.toNat % 64 + 128)] := by
  unfold String.utf8EncodeChar
  dsimp only
  rw [if_neg (by omega), if_neg (by omega), if_neg (by omega)]

theorem lt_of_two_lt_length {c : Char} (h : 2 < (String.utf8EncodeChar c).length) :
    0x7FF < c.val.toNat := by
  unfold String.utf8EncodeChar at h
  dsimp only at h
  split at h
  · simp only [List.length_cons, List.length_nil] at h
    omega
  · split at h
    · simp only [List.length_cons, List.length_nil] at h
      omega
    · omega

theorem exists_char {v : Nat} (h : v.isValidChar) : ∃ c : Char, c.val.toNat = v := by
  refine ⟨Char.ofNat v, ?_⟩
  rw [Char.ofNat, dif_pos h]
  rfl

theorem ofNat_eq {x : UInt8} {n : Nat} (h : n = x.toNat) : UInt8.ofNat n = x := by
  rw [h, UInt8.ofNat_toNat]

-- The code is the one that the bytes given have in their places, with zeros for the rest.
theorem exists_encode_three {first second : UInt8} (h : canBegin first second = true)
    (hfirst : first.toNat < 0xF0) :
    ∃ c third, String.utf8EncodeChar c = [first, second, third] := by
  rw [canBegin_iff_toNat] at h
  have hvalid : Nat.isValidChar ((first.toNat - 0xE0) * 4096 + (second.toNat - 0x80) * 64) := by
    unfold Nat.isValidChar
    omega
  rcases exists_char hvalid with ⟨c, hc⟩
  have hencode := @encode_of_le c (by omega) (by omega)
  rw [@ofNat_eq first _ (by omega), @ofNat_eq second _ (by omega)] at hencode
  exact ⟨c, _, hencode⟩

theorem exists_encode_four {first second third : UInt8} (h : canBegin first second = true)
    (hfirst : 0xF0 ≤ first.toNat) (hthird : isFurther third = true) :
    ∃ c fourth, String.utf8EncodeChar c = [first, second, third, fourth] := by
  rw [canBegin_iff_toNat] at h
  rw [isFurther_iff_toNat] at hthird
  have hvalid : Nat.isValidChar ((first.toNat - 0xF0) * 262144 + (second.toNat - 0x80) * 4096 +
      (third.toNat - 0x80) * 64) := by
    unfold Nat.isValidChar
    omega
  rcases exists_char hvalid with ⟨c, hc⟩
  have hencode := @encode_of_lt c (by omega)
  rw [@ofNat_eq first _ (by omega), @ofNat_eq second _ (by omega),
    @ofNat_eq third _ (by omega)] at hencode
  exact ⟨c, _, hencode⟩

/-- The bytes of a character are in the reader's ranges. -/
theorem canBegin_of_encode {c : Char} {first second third : UInt8} {rest : List UInt8}
    (h : String.utf8EncodeChar c = first :: second :: third :: rest) :
    canBegin first second = true ∧
      (rest ≠ [] → 0xF0 ≤ first.toNat ∧ isFurther third = true) := by
  have hlow : 0x7FF < c.val.toNat :=
    lt_of_two_lt_length (by rw [h]; simp only [List.length_cons]; omega)
  have hvalid : c.val.toNat < 0xD800 ∨ 0xDFFF < c.val.toNat ∧ c.val.toNat < 0x110000 := c.valid
  rw [canBegin_iff_toNat, isFurther_iff_toNat]
  by_cases hhigh : c.val.toNat ≤ 0xFFFF
  · rw [encode_of_le hlow hhigh, List.cons.injEq, List.cons.injEq, List.cons.injEq] at h
    rcases h with ⟨rfl, rfl, rfl, hrest⟩
    refine ⟨?_, fun hne => absurd hrest.symm hne⟩
    rw [UInt8.toNat_ofNat', UInt8.toNat_ofNat']
    omega
  · rw [encode_of_lt (Nat.not_le.mp hhigh), List.cons.injEq, List.cons.injEq,
      List.cons.injEq] at h
    rcases h with ⟨rfl, rfl, rfl, _⟩
    rw [UInt8.toNat_ofNat', UInt8.toNat_ofNat', UInt8.toNat_ofNat']
    omega

theorem exists_encode {first second : UInt8} (h : canBegin first second = true) :
    ∃ c third rest, String.utf8EncodeChar c = first :: second :: third :: rest := by
  by_cases hfirst : first.toNat < 0xF0
  · rcases exists_encode_three h hfirst with ⟨c, third, hc⟩
    exact ⟨c, third, [], hc⟩
  · rcases @exists_encode_four first second 0x80 h (Nat.not_lt.mp hfirst) rfl with ⟨c, fourth, hc⟩
    exact ⟨c, 0x80, [fourth], hc⟩

/-! ### What is given up -/

theorem givenUp_le (x : UInt8) (b : List UInt8) : givenUp x b ≤ b.length := by
  rcases b with _ | ⟨second, _ | ⟨third, b⟩⟩
  · exact Nat.le_refl 0
  · rw [givenUp, List.length_singleton]
    split <;> omega
  · rw [givenUp, List.length_cons, List.length_cons]
    split
    · split <;> omega
    · omega

/-- What is given up beyond a single byte is the beginning of a character. -/
theorem exists_prefix_of_givenUp {x : UInt8} {b : List UInt8} (h : givenUp x b ≠ 0) :
    ∃ c, x :: b.take (givenUp x b) <+: String.utf8EncodeChar c := by
  rcases b with _ | ⟨second, _ | ⟨third, b⟩⟩
  · exact absurd rfl h
  · rw [givenUp] at h ⊢
    split at h
    · next hbegin =>
        rcases exists_encode hbegin with ⟨c, third, rest, hc⟩
        exact ⟨c, third :: rest, by rw [if_pos hbegin, hc]; rfl⟩
    · exact absurd rfl h
  · rw [givenUp] at h ⊢
    split at h
    · next hbegin =>
        rw [if_pos hbegin]
        split
        · next hthird =>
            rw [Bool.and_eq_true, decide_eq_true_eq, UInt8.le_iff_toNat_le] at hthird
            rcases exists_encode_four hbegin hthird.1 hthird.2 with ⟨c, fourth, hc⟩
            exact ⟨c, [fourth], by rw [hc]; rfl⟩
        · rcases exists_encode hbegin with ⟨c, third, rest, hc⟩
          exact ⟨c, third :: rest, by rw [hc]; rfl⟩
    · exact absurd rfl h

/-- Where no character stands, no more than what is given up is the beginning of one. -/
theorem le_givenUp {x : UInt8} {b : List UInt8} (h : charAt? (x :: b) = none) {n : Nat}
    (hn : n ≤ b.length) {c : Char} (hc : x :: b.take n <+: String.utf8EncodeChar c) :
    n ≤ givenUp x b := by
  rcases hc with ⟨rest, hrest⟩
  -- Something is missing, as otherwise the character would be read.
  have hne : rest ≠ [] := by
    rintro rfl
    rw [List.append_nil] at hrest
    have hchar := charAt?_append c (b.drop n)
    rw [← hrest, List.cons_append, List.take_append_drop, h] at hchar
    exact Option.some_ne_none c hchar.symm
  rcases List.exists_cons_of_ne_nil hne with ⟨missing, others, rfl⟩
  match n, b with
  | 0, _ => exact Nat.zero_le _
  | _ + 1, [] => exact hn
  | 1, second :: b =>
      have hbegin := (canBegin_of_encode hrest.symm).1
      cases b with
      | nil => exact Nat.le_of_eq (if_pos hbegin).symm
      | cons third b =>
          rw [givenUp, if_pos hbegin]
          split <;> omega
  | _ + 2, [_] => exact absurd hn (by simp only [List.length_singleton]; omega)
  | n + 2, second :: third :: b =>
      rcases canBegin_of_encode hrest.symm with ⟨hbegin, hfour⟩
      rcases hfour (List.append_ne_nil_of_right_ne_nil _ (List.cons_ne_nil _ _)) with
        ⟨hfirst, hthird⟩
      have hgiven : givenUp x (second :: third :: b) = 2 := by
        rw [givenUp, if_pos hbegin, if_pos]
        rw [Bool.and_eq_true, decide_eq_true_eq]
        exact ⟨UInt8.le_iff_toNat_le.mpr hfirst, hthird⟩
      -- No character has more than four bytes, and one of them is missing.
      have hlength := congrArg List.length hrest
      have hle := c.utf8Size_le_four
      rw [String.length_utf8EncodeChar, List.length_append, List.length_cons, List.length_cons,
        List.length_take] at hlength
      rw [hgiven]
      omega

/-- What is read where no character stands: one replacement character for the longest part that
    begins a character, or for a single byte. -/
theorem lossy_of_charAt?_eq_none {x : UInt8} {b : List UInt8} (h : charAt? (x :: b) = none) :
    ∃ n ≤ b.length, lossy (x :: b) = '\uFFFD' :: lossy (b.drop n) ∧
      (n ≠ 0 → ∃ c, x :: b.take n <+: String.utf8EncodeChar c) ∧
      ∀ m ≤ b.length, (∃ c, x :: b.take m <+: String.utf8EncodeChar c) → m ≤ n := by
  refine ⟨givenUp x b, givenUp_le x b, ?_, exists_prefix_of_givenUp,
    fun m hm ⟨_, hc⟩ => le_givenUp h hm hc⟩
  rw [lossy, lossyFrom, h]
  dsimp only
  rw [lossyFrom_eq_lossy_drop]

-- The last of four bytes is missing, then the last of three, then the last of two.
example : lossy [0xF1, 0x80, 0x80, 0xE1, 0x80, 0xC2, 0x62] =
    ['\uFFFD', '\uFFFD', '\uFFFD', 'b'] := by decide +kernel

end Text

end MailMerge
