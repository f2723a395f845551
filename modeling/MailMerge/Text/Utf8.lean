/-!
# Bytes of a Text

A text is stored as the UTF-8 bytes of its characters. Not all bytes come from a text, but
they can be taken for one, with a loss: where no character stands, the replacement character
is read instead.

The replacement character stands for as many bytes as could have begun a character, and for
one byte if it could not have begun any. So a character that was cut off leaves one
replacement character, and bytes that no character begins with leave one each. What is behind
is read as if nothing had happened.

Reading walks over the bytes one by one. It counts down those that belong to what was read
already, so it is structural.

## Main definitions

* `bytes`: The bytes of a text.
* `charAt?`: The character that some bytes begin with.
* `lossy`, `mended`: The text that bytes are taken for, and its bytes.
* `IsUtf8`: Bytes that come from a text.

## Theorems

* `lossy_bytes`: The bytes of a text are taken for this text.
* `mended_eq_self`: Bytes that come from a text stay.
* `mem_of_mem_mended`: No byte below `0x80` comes in when bytes are taken for a text.
* `isUtf8_of_append_cons`: A byte below `0x80` parts a text where it parts its bytes.
-/

namespace MailMerge

namespace Text

/-- The bytes of a text. -/
def bytes (t : List Char) : List UInt8 := t.flatMap String.utf8EncodeChar

/-- The character that some bytes begin with. -/
def charAt? (b : List UInt8) : Option Char := b.toByteArray.utf8DecodeChar? 0

/-- Whether a byte can go on a character. -/
def isFurther (x : UInt8) : Bool := 0x80 ≤ x && x ≤ 0xBF

/-- Whether two bytes can begin a character of three bytes or more. -/
def canBegin (first second : UInt8) : Bool :=
  -- The bounds leave out what would be too long a form, a surrogate or too large a number.
  if first = 0xE0 then 0xA0 ≤ second && second ≤ 0xBF
  else if first = 0xED then 0x80 ≤ second && second ≤ 0x9F
  else if first = 0xF0 then 0x90 ≤ second && second ≤ 0xBF
  else if first = 0xF4 then 0x80 ≤ second && second ≤ 0x8F
  else 0xE1 ≤ first && first ≤ 0xF3 && isFurther second

/-- How many bytes are given up behind a first one where no character stands. -/
def givenUp (first : UInt8) : List UInt8 → Nat
  | [] => 0
  | [second] => if canBegin first second then 1 else 0
  | second :: third :: _ =>
      if canBegin first second then if 0xF0 ≤ first && isFurther third then 2 else 1 else 0

/-- The text that bytes are taken for behind the first `skip` ones. -/
def lossyFrom : (skip : Nat) → List UInt8 → List Char
  | _, [] => []
  | skip + 1, _ :: b => lossyFrom skip b
  | 0, x :: b => match charAt? (x :: b) with
    | some c => c :: lossyFrom (c.utf8Size - 1) b
    | none => '\uFFFD' :: lossyFrom (givenUp x b) b

/-- The text that bytes are taken for. -/
def lossy (b : List UInt8) : List Char := lossyFrom 0 b

/-- The bytes of the text that bytes are taken for. -/
def mended (b : List UInt8) : List UInt8 := bytes (lossy b)

/-- Whether bytes come from a text. -/
def IsUtf8 (b : List UInt8) : Prop := ∃ t, b = bytes t

theorem bytes_cons (c : Char) (t : List Char) :
    bytes (c :: t) = String.utf8EncodeChar c ++ bytes t := List.flatMap_cons

theorem bytes_append (s t : List Char) : bytes (s ++ t) = bytes s ++ bytes t :=
  List.flatMap_append

/-- The bytes of a character are read as this character. -/
theorem charAt?_append (c : Char) (b : List UInt8) :
    charAt? (String.utf8EncodeChar c ++ b) = some c := by
  rw [charAt?, List.toByteArray_append]
  exact ByteArray.utf8DecodeChar?_utf8EncodeChar_append

/-- Bytes that are read as a character begin with its bytes. -/
theorem exists_of_charAt? {b : List UInt8} {c : Char} (h : charAt? b = some c) :
    ∃ rest, b = String.utf8EncodeChar c ++ rest := by
  rcases ByteArray.exists_of_utf8DecodeChar?_eq_some h with ⟨rest, hrest⟩
  refine ⟨rest.data.toList, ?_⟩
  have hlist := congrArg (fun a : ByteArray => a.data.toList) hrest
  rwa [List.toList_data_toByteArray, ByteArray.data_append, Array.toList_append,
    List.toList_data_toByteArray] at hlist

/-- Skipping is the same as starting further on. -/
theorem lossyFrom_eq_lossy_drop (skip : Nat) (b : List UInt8) :
    lossyFrom skip b = lossy (b.drop skip) := by
  induction b generalizing skip with
  | nil => rw [lossyFrom, List.drop_nil, lossy, lossyFrom]
  | cons x b ih =>
      cases skip with
      | zero => rfl
      | succ skip => rw [lossyFrom, ih, List.drop_succ_cons]

/-- A character is taken for what it is, whatever is behind. -/
theorem lossy_encode_append (c : Char) (b : List UInt8) :
    lossy (String.utf8EncodeChar c ++ b) = c :: lossy b := by
  have hchar := charAt?_append c b
  have hlength := String.length_utf8EncodeChar c
  rcases hencode : String.utf8EncodeChar c with _ | ⟨x, beyond⟩
  · rw [hencode] at hlength
    exact absurd hlength.symm (Nat.ne_of_gt c.utf8Size_pos)
  · rw [hencode] at hchar hlength
    rw [List.cons_append] at hchar ⊢
    rw [lossy, lossyFrom, hchar]
    dsimp only
    rw [lossyFrom_eq_lossy_drop, ← hlength, List.length_cons, Nat.add_sub_cancel,
      List.drop_left]

/-- The bytes of a text are taken for this text. -/
theorem lossy_bytes (t : List Char) : lossy (bytes t) = t := by
  induction t with
  | nil => rfl
  | cons c t ih => rw [bytes_cons, lossy_encode_append, ih]

theorem bytes_injective {s t : List Char} (h : bytes s = bytes t) : s = t := by
  rw [← lossy_bytes s, h, lossy_bytes]

theorem isUtf8_bytes (t : List Char) : IsUtf8 (bytes t) := ⟨t, rfl⟩

theorem isUtf8_append {a b : List UInt8} (ha : IsUtf8 a) (hb : IsUtf8 b) : IsUtf8 (a ++ b) := by
  rcases ha with ⟨s, rfl⟩
  rcases hb with ⟨t, rfl⟩
  exact ⟨s ++ t, (bytes_append s t).symm⟩

/-- Bytes that come from a text stay. -/
theorem mended_eq_self {b : List UInt8} (h : IsUtf8 b) : mended b = b := by
  rcases h with ⟨t, rfl⟩
  rw [mended, lossy_bytes]

theorem isUtf8_mended (b : List UInt8) : IsUtf8 (mended b) := isUtf8_bytes (lossy b)

theorem mended_eq_mended_iff {a b : List UInt8} : mended a = mended b ↔ lossy a = lossy b :=
  ⟨bytes_injective, congrArg bytes⟩

-- Part of a number in a byte, behind a mark of 128 or more.
theorem le_toNat_ofNat_mod {n m mark : Nat} (pos : 0 < m) (high : 128 ≤ mark)
    (fits : m + mark ≤ 256) : 128 ≤ (UInt8.ofNat (n % m + mark)).toNat := by
  have hmod := Nat.mod_lt n pos
  rw [UInt8.toNat_ofNat', Nat.mod_eq_of_lt (by omega)]
  omega

/-- A character beyond the first 128 has high bytes only. -/
theorem le_of_mem_encode {c : Char} (hc : ¬ c.val.toNat ≤ 127) {x : UInt8}
    (h : x ∈ String.utf8EncodeChar c) : 128 ≤ x.toNat := by
  unfold String.utf8EncodeChar at h
  dsimp only at h
  rw [if_neg hc] at h
  split at h
  · simp only [List.mem_cons, List.not_mem_nil, or_false] at h
    rcases h with rfl | rfl <;> exact le_toNat_ofNat_mod (by decide) (by decide) (by decide)
  · split at h
    · simp only [List.mem_cons, List.not_mem_nil, or_false] at h
      rcases h with rfl | rfl | rfl <;>
        exact le_toNat_ofNat_mod (by decide) (by decide) (by decide)
    · simp only [List.mem_cons, List.not_mem_nil, or_false] at h
      rcases h with rfl | rfl | rfl | rfl <;>
        exact le_toNat_ofNat_mod (by decide) (by decide) (by decide)

/-- A byte below `0x80` of a character is all of it. -/
theorem encode_of_mem {c : Char} {x : UInt8} (h : x ∈ String.utf8EncodeChar c) (hx : x < 0x80) :
    String.utf8EncodeChar c = [x] := by
  by_cases hc : c.val.toNat ≤ 127
  · have hencode : String.utf8EncodeChar c = [UInt8.ofNat c.val.toNat] := by
      unfold String.utf8EncodeChar
      exact if_pos hc
    rw [hencode, List.mem_singleton] at h
    rw [hencode, h]
  · exact absurd (le_of_mem_encode hc h) (Nat.not_le.mpr (UInt8.lt_iff_toNat_lt.mp hx))

/-- No byte below `0x80` comes in when bytes are taken for a text. -/
theorem mem_of_mem_mended {b : List UInt8} {x : UInt8} (hx : x < 0x80)
    (h : x ∈ mended b) : x ∈ b := by
  -- What is still to be skipped varies along the bytes.
  suffices hfrom : ∀ skip, x ∈ bytes (lossyFrom skip b) → x ∈ b from hfrom 0 h
  clear h
  intro skip h
  induction b generalizing skip with
  | nil =>
      rw [lossyFrom] at h
      exact h
  | cons y b ih =>
      cases skip with
      | succ skip => exact List.mem_cons_of_mem y (ih skip h)
      | zero =>
          rw [lossyFrom] at h
          split at h
          · next c hc =>
              rw [bytes_cons] at h
              rcases List.mem_append.mp h with h | h
              · rcases exists_of_charAt? hc with ⟨rest, hrest⟩
                exact hrest ▸ List.mem_append_left rest h
              · exact List.mem_cons_of_mem y (ih _ h)
          · rw [bytes_cons] at h
            rcases List.mem_append.mp h with h | h
            · -- The replacement character has no such byte.
              exact absurd (le_of_mem_encode (by decide) h)
                (Nat.not_le.mpr (UInt8.lt_iff_toNat_lt.mp hx))
            · exact List.mem_cons_of_mem y (ih _ h)

/-- A byte below `0x80` parts a text where it parts its bytes. -/
theorem isUtf8_of_append_cons {before behind : List UInt8} {x : UInt8} (hx : x < 0x80)
    (h : IsUtf8 (before ++ x :: behind)) : IsUtf8 before ∧ IsUtf8 behind := by
  rcases h with ⟨t, h⟩
  induction t generalizing before with
  | nil => exact absurd h (List.append_ne_nil_of_right_ne_nil _ (List.cons_ne_nil x behind))
  | cons c t ih =>
      rw [bytes_cons, eq_comm, List.append_eq_append_iff] at h
      rcases h with ⟨rest, rfl, hrest⟩ | ⟨rest, hencode, hrest⟩
      · -- It is behind this character.
        rcases ih hrest.symm with ⟨hs, hbehind⟩
        exact ⟨isUtf8_append ⟨[c], (List.append_nil _).symm⟩ hs, hbehind⟩
      · cases rest with
        | nil =>
            rw [List.append_nil] at hencode
            exact ⟨⟨[c], hencode ▸ (List.append_nil _).symm⟩, (@ih [] hrest).2⟩
        | cons y rest =>
            -- It belongs to this character, so it is this character.
            rw [List.cons_append, List.cons.injEq] at hrest
            rcases hrest with ⟨rfl, hrest⟩
            have hsingle := encode_of_mem
              (hencode ▸ List.mem_append_right before List.mem_cons_self) hx
            rw [hsingle, List.singleton_eq_append_iff] at hencode
            rcases hencode with ⟨hbefore, hrest'⟩ | ⟨_, hrest'⟩
            · rw [(List.cons.inj hrest').2, List.nil_append] at hrest
              exact ⟨⟨[], hbefore⟩, t, hrest⟩
            · exact absurd hrest' (List.cons_ne_nil x rest)

end Text

end MailMerge
