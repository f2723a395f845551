import MailMerge.Json.Reader
import MailMerge.Json.Writer

/-!
# Reading a Written Value

A value is written in one way and can be read in many, so what has to be shown is that the
one way is among the many. Writing goes through three layers, and reading undoes them one
after the other.

The innermost layer is the string. Each character is written as itself or as an escape, and
whichever it is, one letter is read there, and that letter denotes the character again. What
follows does not matter, since an escape tells where it ends.

The middle layer is the sequence of lexemes. The lexemes of a value can be told from the
value alone, the indentation being nothing but blanks between them. A word is the one lexeme
that does not tell where it ends, so what follows a value must not go on with a word, and in
written JSON it never does.

The outermost layer is the nesting. The reader remembers the place where the value at hand
belongs, and when the lexemes of a value have been taken, it stands behind that value at the
same place.

Numbers are left aside. Nothing that a document is written with is a number.

## Main definitions

* `Spells`: A stretch of a string and the character it stands for.
* `isTextual`: A value in which everything is told by strings, arrays, objects and words
  other than numbers.
* `lexemes`: The lexemes of a written value.

## Theorems

* `spells_escape`: An escaped character stands for that character.
* `tokens?_write`: The lexemes of a written value.
* `run_lexemes`: Taking the lexemes of a value leads behind the value.
* `parse?_pretty`: A written value is read as that value.
-/

namespace MailMerge

namespace Json

/-! ### Strings -/

/-- Whether a stretch of a string gives one letter, whatever follows it, and the letter
    denotes a character. -/
def Spells (written : List Char) (c : Char) : Prop :=
  ∃ letter,
    (∀ t letters count, letters? t = some (letters, count) →
      letters? (written ++ t) = some (letter :: letters, count + written.length)) ∧
    ∀ letters, decode? (letter :: letters) = (decode? letters).map (c :: ·)

/-- Most characters stand for themselves. -/
theorem spells_self {c : Char} (quote : c ≠ '"') (backslash : c ≠ '\\') (control : 0x20 ≤ c.toNat) :
    Spells [c] c := by
  refine ⟨.plain c, fun t letters count ht => ?_, fun letters => rfl⟩
  have hc : ¬ c.toNat < 0x20 := by omega
  rw [List.singleton_append, letters?.eq_5 c t quote (fun _ _ _ _ _ h _ => backslash h)
    (fun _ _ h _ => backslash h), if_neg hc, ht]
  rfl

/-- A letter behind a backslash, except the one that announces a code. -/
theorem spells_escaped {letter c : Char} (h : escaped? letter = some c) :
    Spells ['\\', letter] c := by
  refine ⟨.plain c, fun t letters count ht => ?_, fun letters => rfl⟩
  have hcode : letter ≠ 'u' := by
    intro hu
    rw [hu] at h
    exact Option.some_ne_none c h.symm
  rw [List.cons_append, List.singleton_append,
    letters?.eq_4 letter t (fun _ _ _ _ _ hu _ => hcode hu), h, ht]
  rfl

/-- A code of four digits, if it is not half of a surrogate pair. -/
theorem spells_coded {a b c d : Char} {unit : Nat} (h : unit? a b c d = some unit)
    (high : isHigh unit = false) (low : isLow unit = false) :
    Spells ['\\', 'u', a, b, c, d] (Char.ofNat unit) := by
  refine ⟨.coded unit, fun t letters count ht => ?_, fun letters => ?_⟩
  · rw [List.cons_append, List.cons_append, List.cons_append, List.cons_append, List.cons_append,
      List.cons_append, List.nil_append, letters?, h, ht]
    rfl
  · rw [decode?.eq_def]
    simp only [high, low, Bool.false_eq_true, if_false]

theorem hexDigit?_digitChar : ∀ d < 16, hexDigit? (Nat.digitChar d) = some d := by decide

/-- The code of a control character. -/
theorem unit?_of_lt {n : Nat} (h : n < 0x20) :
    unit? '0' '0' (Nat.digitChar (n / 16)) (Nat.digitChar (n % 16)) = some n := by
  have hzero : hexDigit? '0' = some 0 := by decide
  have hhigh := hexDigit?_digitChar (n / 16) (by omega)
  have hlow := hexDigit?_digitChar (n % 16) (by omega)
  simp only [unit?, hzero, hhigh, hlow, Option.bind_eq_bind, Option.bind_some, Option.pure_def,
    Option.some.injEq]
  omega

/-- An escaped character stands for that character. -/
theorem spells_escape (c : Char) : Spells (escape c) c := by
  unfold escape
  by_cases hquote : c = '"'
  · rw [if_pos hquote, hquote]
    exact spells_escaped rfl
  by_cases hbackslash : c = '\\'
  · rw [if_neg hquote, if_pos hbackslash, hbackslash]
    exact spells_escaped rfl
  rw [if_neg hquote, if_neg hbackslash]
  -- Five control characters have a letter of their own, and the others have a code.
  by_cases hcontrol : c.toNat < 0x20
  · split
    · next h =>
        rw [h]
        exact spells_escaped rfl
    split
    · next h =>
        rw [h]
        exact spells_escaped rfl
    split
    · next h =>
        rw [h]
        exact spells_escaped rfl
    split
    · next h =>
        rw [h]
        exact spells_escaped rfl
    split
    · next h =>
        rw [h]
        exact spells_escaped rfl
    have hhigh : isHigh c.toNat = false := by
      simp only [isHigh, Bool.and_eq_false_iff, decide_eq_false_iff_not]
      omega
    have hlow : isLow c.toNat = false := by
      simp only [isLow, Bool.and_eq_false_iff, decide_eq_false_iff_not]
      omega
    have hspells := spells_coded (unit?_of_lt hcontrol) hhigh hlow
    rwa [Char.ofNat_toNat] at hspells
  · have hne : ∀ x : Char, x.toNat < 0x20 → c ≠ x := fun x hx h => hcontrol (h ▸ hx)
    rw [if_neg (hne _ (by decide)), if_neg (hne _ (by decide)), if_neg (hne _ (by decide)),
      if_neg (hne _ (by decide)), if_neg (hne _ (by decide)), if_neg hcontrol]
    exact spells_self hquote hbackslash (by omega)

/-- The letters of a written string denote the string. -/
theorem letters?_escaped (s rest : List Char) :
    ∃ letters, letters? (s.flatMap escape ++ '"' :: rest) =
        some (letters, (s.flatMap escape).length + 1) ∧ decode? letters = some s := by
  induction s with
  | nil => exact ⟨[], rfl, rfl⟩
  | cons c s ih =>
      rcases ih with ⟨letters, hletters, hdecode⟩
      rcases spells_escape c with ⟨letter, hletter, hc⟩
      refine ⟨letter :: letters, ?_, ?_⟩
      · have hcons := hletter _ _ _ hletters
        rw [List.flatMap_cons, List.append_assoc, hcons, List.length_append]
        congr 2
        omega
      · rw [hc, hdecode, Option.map_some]

/-! ### Lexemes -/

theorem tokens?_cons_of_token? {c : Char} {t : List Char} {token : Token} {beyond : Nat}
    {l : List Token} (h : token? (c :: t) = some ⟨token, beyond⟩)
    (ht : tokens? (t.drop beyond) = some l) : tokens? (c :: t) = some (token :: l) := by
  rw [tokens?, Text.pieces] at ht ⊢
  rw [Text.cut, h]
  dsimp only
  rw [Text.cut_eq_cut_drop, gather?, ht, Option.map_some]

/-- Punctuation is a lexeme by itself. -/
theorem tokens?_punctuation {c : Char} {t : List Char} {token : Token} {l : List Token}
    (h : token? (c :: t) = some ⟨token, 0⟩) (ht : tokens? t = some l) :
    tokens? (c :: t) = some (token :: l) :=
  tokens?_cons_of_token? h ht

theorem token?_of_isSpace {c : Char} (h : isSpace c = true) (t : List Char) :
    token? (c :: t) = none := by
  simp only [isSpace, Bool.or_eq_true, decide_eq_true_eq] at h
  rcases h with ((rfl | rfl) | rfl) | rfl <;> rfl

/-- A blank is passed over. -/
theorem tokens?_cons_of_isSpace {c : Char} (h : isSpace c = true) (t : List Char) :
    tokens? (c :: t) = tokens? t := by
  rw [tokens?, tokens?, Text.pieces, Text.pieces, Text.cut, token?_of_isSpace h t]
  dsimp only
  rw [gather?, if_pos h]

/-- A new line with its indentation is passed over. -/
theorem tokens?_newline (level : Nat) (t : List Char) :
    tokens? (newline level ++ t) = tokens? t := by
  have hblanks : ∀ n, tokens? (List.replicate n ' ' ++ t) = tokens? t := by
    intro n
    induction n with
    | zero => rfl
    | succ n ih => rw [List.replicate_succ, List.cons_append, tokens?_cons_of_isSpace rfl, ih]
  rw [newline, List.cons_append, tokens?_cons_of_isSpace rfl, hblanks]

/-- A written string is one lexeme. -/
theorem tokens?_quote {s : String} {t : List Char} {l : List Token} (ht : tokens? t = some l) :
    tokens? (quote s ++ t) = some (.string (some s) :: l) := by
  rcases letters?_escaped s.toList t with ⟨letters, hletters, hdecode⟩
  have htoken : token? ('"' :: (s.toList.flatMap escape ++ '"' :: t)) =
      some ⟨.string (some s), (s.toList.flatMap escape).length + 1⟩ := by
    simp only [token?, hletters, Option.map_some, hdecode, String.ofList_toList]
  have hrest : (s.toList.flatMap escape ++ '"' :: t).drop ((s.toList.flatMap escape).length + 1) =
      t := by
    rw [← List.drop_drop, List.drop_left, List.drop_one, List.tail_cons]
  rw [quote, List.cons_append, List.cons_append, List.append_assoc, List.singleton_append]
  exact tokens?_cons_of_token? htoken (by rw [hrest, ht])

/-- Whether a text does not go on with a word. -/
def EndsWord (t : List Char) : Prop := t.takeWhile isWordChar = []

theorem endsWord_cons {c : Char} (h : isWordChar c = false) (t : List Char) :
    EndsWord (c :: t) := by
  rw [EndsWord, List.takeWhile_cons, h]
  rfl

theorem token?_of_isWordChar {c : Char} (h : isWordChar c = true) (t : List Char) :
    token? (c :: t) = (word? ((c :: t).takeWhile isWordChar)).map fun v =>
      ⟨.word v, ((c :: t).takeWhile isWordChar).length - 1⟩ := by
  have hne : ∀ p, isWordChar p = false → ∀ u, c :: t ≠ p :: u := by
    intro p hp u hu
    rw [List.cons.injEq] at hu
    rw [hu.1, hp] at h
    exact Bool.false_ne_true h
  exact token?.eq_9 (c :: t) (List.cons_ne_nil c t) (hne '[' rfl) (hne ']' rfl) (hne '\x7b' rfl)
    (hne '\x7d' rfl) (hne ',' rfl) (hne ':' rfl) (hne '"' rfl)

/-- A word is one lexeme where no word goes on. -/
theorem tokens?_word {c : Char} {word t : List Char} {v : Json} {l : List Token}
    (hword : word? (c :: word) = some v) (hchars : ∀ x ∈ c :: word, isWordChar x = true)
    (hend : EndsWord t) (ht : tokens? t = some l) :
    tokens? (c :: word ++ t) = some (.word v :: l) := by
  have htake : (c :: (word ++ t)).takeWhile isWordChar = c :: word := by
    rw [← List.cons_append, List.takeWhile_append_of_pos hchars, hend, List.append_nil]
  have htoken : token? (c :: (word ++ t)) = some ⟨.word v, word.length⟩ := by
    rw [token?_of_isWordChar (hchars c List.mem_cons_self), htake, hword]
    rfl
  have hdrop : (word ++ t).drop word.length = t := List.drop_left
  rw [List.cons_append]
  exact tokens?_cons_of_token? htoken (by rw [hdrop, ht])

/-! ### Written values -/

mutual

/-- Whether there are no numbers in a value, and nothing unreadable. -/
def isTextual : Json → Bool
  | .null | .bool _ | .string _ => true
  | .number _ | .unreadable => false
  | .array items => allTextual items
  | .object members => allMembersTextual members

/-- Whether all items of an array are textual. -/
def allTextual : List Json → Bool
  | [] => true
  | v :: rest => v.isTextual && allTextual rest

/-- Whether all members of an object are textual. -/
def allMembersTextual : List (String × Json) → Bool
  | [] => true
  | (_, v) :: rest => v.isTextual && allMembersTextual rest

end

theorem allTextual_iff {items : List Json} :
    allTextual items = true ↔ ∀ v ∈ items, v.isTextual = true := by
  induction items with
  | nil => simp only [allTextual, List.not_mem_nil, false_imp_iff, implies_true]
  | cons v rest ih => simp only [allTextual, Bool.and_eq_true, ih, List.forall_mem_cons]

theorem allMembersTextual_iff {members : List (String × Json)} :
    allMembersTextual members = true ↔ ∀ m ∈ members, m.2.isTextual = true := by
  induction members with
  | nil => simp only [allMembersTextual, List.not_mem_nil, false_imp_iff, implies_true]
  | cons m rest ih => simp only [allMembersTextual, Bool.and_eq_true, ih, List.forall_mem_cons]

mutual

/-- What is textual is readable. -/
theorem isReadable_of_isTextual : ∀ v : Json, v.isTextual = true → v.isReadable = true
  | .null, _ | .bool _, _ | .string _, _ => rfl
  | .number _, h | .unreadable, h => absurd h Bool.false_ne_true
  | .array items, h => allReadable_of_allTextual items h
  | .object members, h => allMembersReadable_of_allMembersTextual members h

theorem allReadable_of_allTextual :
    ∀ items : List Json, allTextual items = true → allReadable items = true
  | [], _ => rfl
  | v :: rest, h => by
      rw [allTextual, Bool.and_eq_true] at h
      rw [allReadable, isReadable_of_isTextual v h.1, allReadable_of_allTextual rest h.2,
        Bool.and_true]

theorem allMembersReadable_of_allMembersTextual :
    ∀ members : List (String × Json), allMembersTextual members = true →
      allMembersReadable members = true
  | [], _ => rfl
  | (_, v) :: rest, h => by
      rw [allMembersTextual, Bool.and_eq_true] at h
      rw [allMembersReadable, isReadable_of_isTextual v h.1,
        allMembersReadable_of_allMembersTextual rest h.2, Bool.and_true]

end

mutual

/-- The lexemes of a written value. -/
def lexemes : Json → List Token
  | .null | .unreadable => [.word .null]
  | .bool b => [.word (.bool b)]
  | .number literal => [.word (.number literal)]
  | .string s => [.string (some s)]
  | .array [] => [.openArray, .closeArray]
  | .array (v :: rest) => .openArray :: (lexemes v ++ (itemLexemes rest ++ [.closeArray]))
  | .object [] => [.openObject, .closeObject]
  | .object ((name, v) :: rest) =>
      .openObject :: .string (some name) :: .colon ::
        (lexemes v ++ (memberLexemes rest ++ [.closeObject]))

/-- The lexemes of the items behind the first one. -/
def itemLexemes : List Json → List Token
  | [] => []
  | v :: rest => .comma :: (lexemes v ++ itemLexemes rest)

/-- The lexemes of the members behind the first one. -/
def memberLexemes : List (String × Json) → List Token
  | [] => []
  | (name, v) :: rest =>
      .comma :: .string (some name) :: .colon :: (lexemes v ++ memberLexemes rest)

end

theorem endsWord_newline (level : Nat) (t : List Char) : EndsWord (newline level ++ t) :=
  endsWord_cons rfl _

theorem endsWord_writeItems (level : Nat) (items : List Json) {t : List Char} (h : EndsWord t) :
    EndsWord (writeItems level items ++ t) := by
  cases items with
  | nil => exact h
  | cons v rest => exact endsWord_cons rfl _

theorem endsWord_writeMembers (level : Nat) (members : List (String × Json)) {t : List Char}
    (h : EndsWord t) : EndsWord (writeMembers level members ++ t) := by
  cases members with
  | nil => exact h
  | cons m rest => exact endsWord_cons rfl _

/-- A name and its colon, as they stand before each member. -/
theorem tokens?_name {name : String} {t : List Char} {l : List Token} (ht : tokens? t = some l) :
    tokens? (quote name ++ ':' :: ' ' :: t) = some (.string (some name) :: .colon :: l) := by
  refine tokens?_quote (tokens?_punctuation rfl ?_)
  rw [tokens?_cons_of_isSpace rfl, ht]

mutual

/-- The lexemes of a written value are found in front of whatever follows it. -/
theorem tokens?_write (level : Nat) {t : List Char} {l : List Token} :
    ∀ v : Json, v.isTextual = true → EndsWord t → tokens? t = some l →
      tokens? (v.write level ++ t) = some (lexemes v ++ l)
  | .null, _, hend, ht | .bool true, _, hend, ht | .bool false, _, hend, ht =>
      tokens?_word rfl (List.all_eq_true.mp rfl) hend ht
  | .number _, h, _, _ | .unreadable, h, _, _ => absurd h Bool.false_ne_true
  | .string s, _, _, ht => tokens?_quote ht
  | .array [], _, _, ht => tokens?_punctuation rfl (tokens?_punctuation rfl ht)
  | .object [], _, _, ht => tokens?_punctuation rfl (tokens?_punctuation rfl ht)
  | .array (v :: rest), h, _, ht => by
      rw [isTextual, allTextual, Bool.and_eq_true] at h
      have hclose : tokens? (newline level ++ ']' :: t) = some (.closeArray :: l) := by
        rw [tokens?_newline]
        exact tokens?_punctuation rfl ht
      have hitems := tokens?_writeItems (level + 1) rest h.2 (endsWord_newline level _) hclose
      have hfirst := tokens?_write (level + 1) v h.1
        (endsWord_writeItems (level + 1) rest (endsWord_newline level _)) hitems
      simp only [write, lexemes, List.cons_append, List.append_assoc, List.nil_append]
      refine tokens?_punctuation rfl ?_
      rw [tokens?_newline, hfirst]
  | .object ((name, v) :: rest), h, _, ht => by
      rw [isTextual, allMembersTextual, Bool.and_eq_true] at h
      have hclose : tokens? (newline level ++ '\x7d' :: t) = some (.closeObject :: l) := by
        rw [tokens?_newline]
        exact tokens?_punctuation rfl ht
      have hmembers := tokens?_writeMembers (level + 1) rest h.2 (endsWord_newline level _) hclose
      have hfirst := tokens?_write (level + 1) v h.1
        (endsWord_writeMembers (level + 1) rest (endsWord_newline level _)) hmembers
      simp only [write, lexemes, List.cons_append, List.append_assoc, List.nil_append]
      refine tokens?_punctuation rfl ?_
      rw [tokens?_newline, tokens?_name hfirst]

theorem tokens?_writeItems (level : Nat) {t : List Char} {l : List Token} :
    ∀ items : List Json, allTextual items = true → EndsWord t → tokens? t = some l →
      tokens? (writeItems level items ++ t) = some (itemLexemes items ++ l)
  | [], _, _, ht => ht
  | v :: rest, h, hend, ht => by
      rw [allTextual, Bool.and_eq_true] at h
      have hrest := tokens?_writeItems level rest h.2 hend ht
      have hfirst := tokens?_write level v h.1 (endsWord_writeItems level rest hend) hrest
      simp only [writeItems, itemLexemes, List.cons_append, List.append_assoc]
      refine tokens?_punctuation rfl ?_
      rw [tokens?_newline, hfirst]

theorem tokens?_writeMembers (level : Nat) {t : List Char} {l : List Token} :
    ∀ members : List (String × Json), allMembersTextual members = true → EndsWord t →
      tokens? t = some l →
      tokens? (writeMembers level members ++ t) = some (memberLexemes members ++ l)
  | [], _, _, ht => ht
  | (name, v) :: rest, h, hend, ht => by
      rw [allMembersTextual, Bool.and_eq_true] at h
      have hrest := tokens?_writeMembers level rest h.2 hend ht
      have hfirst := tokens?_write level v h.1 (endsWord_writeMembers level rest hend) hrest
      simp only [writeMembers, memberLexemes, List.cons_append, List.append_assoc]
      refine tokens?_punctuation rfl ?_
      rw [tokens?_newline, tokens?_name hfirst]

end

/-! ### Nesting -/

/-- Reading items that were all written by what is read gives the items. -/
theorem mapM_map_eq_some {α β : Type} {write : α → β} {read? : β → Option α} {l : List α}
    (h : ∀ x ∈ l, read? (write x) = some x) : (l.map write).mapM read? = some l := by
  induction l with
  | nil => rfl
  | cons x l ih =>
      have hx := h x List.mem_cons_self
      have hl := ih fun y hy => h y (List.mem_cons_of_mem x hy)
      rw [List.map_cons, List.mapM_cons, hx, hl]
      rfl

/-- Where an array has just begun, its first item may be read like any value. -/
theorem run_firstItem (outer : Place) (v : Json) (l : List Token) :
    (State.firstItem outer).run (lexemes v ++ l) =
      (State.value (.item [] outer)).run (lexemes v ++ l) := by
  cases v with
  | array items => cases items <;> rfl
  | object members => cases members <;> rfl
  | _ => rfl

/-- Members as they are kept while an object is being read. -/
def named (members : List (String × Json)) : List (Option String × Json) :=
  members.map fun m => (some m.1, m.2)

theorem objectOf_named (members : List (String × Json)) :
    objectOf (named members).reverse = .object members := by
  have hnames : (named members).mapM (fun m => m.1.map fun name => (name, m.2)) =
      some members := mapM_map_eq_some fun _ _ => rfl
  rw [objectOf, List.reverse_reverse, hnames]

mutual

/-- Taking the lexemes of a value leads behind the value, at the same place. -/
theorem run_lexemes (place : Place) (l : List Token) :
    ∀ v : Json, v.isTextual = true →
      (State.value place).run (lexemes v ++ l) = (State.after v place).run l
  | .null, _ | .bool _, _ | .string _, _ | .array [], _ | .object [], _ => rfl
  | .number _, h | .unreadable, h => absurd h Bool.false_ne_true
  | .array (v :: rest), h => by
      rw [isTextual, allTextual, Bool.and_eq_true] at h
      have hfirst : (State.value (.item [] place)).run
          (lexemes v ++ (itemLexemes rest ++ .closeArray :: l)) =
          (State.after v (.item [] place)).run (itemLexemes rest ++ .closeArray :: l) :=
        run_lexemes _ _ v h.1
      simp only [lexemes, List.cons_append, List.append_assoc, List.nil_append]
      rw [State.run]
      simp only [State.step, beginValue, Option.bind_some]
      rw [run_firstItem, hfirst]
      exact run_itemLexemes place l [] rest v h.2
  | .object ((name, v) :: rest), h => by
      rw [isTextual, allMembersTextual, Bool.and_eq_true] at h
      have hfirst : (State.value (.member [] (some name) place)).run
          (lexemes v ++ (memberLexemes rest ++ .closeObject :: l)) =
          (State.after v (.member [] (some name) place)).run
            (memberLexemes rest ++ .closeObject :: l) :=
        run_lexemes _ _ v h.1
      simp only [lexemes, List.cons_append, List.append_assoc, List.nil_append]
      simp only [State.run, State.step, beginValue, Option.bind_some]
      rw [hfirst]
      exact run_memberLexemes place l [] rest name v h.2

/-- Behind an item, taking the lexemes of the others and the end leads behind the array. -/
theorem run_itemLexemes (outer : Place) (l : List Token) (done : List Json) :
    ∀ (items : List Json) (v : Json), allTextual items = true →
      (State.after v (.item done.reverse outer)).run (itemLexemes items ++ .closeArray :: l) =
        (State.after (.array (done ++ v :: items)) outer).run l
  | [], v, _ => by
      simp only [itemLexemes, List.nil_append, State.run, State.step, Option.bind_some,
        List.reverse_cons, List.reverse_reverse]
  | w :: rest, v, h => by
      rw [allTextual, Bool.and_eq_true] at h
      have hfirst := run_lexemes (.item (v :: done.reverse) outer)
        (itemLexemes rest ++ .closeArray :: l) w h.1
      have hrest := run_itemLexemes outer l (done ++ [v]) rest w h.2
      rw [List.reverse_append, List.reverse_singleton, List.singleton_append, List.append_assoc,
        List.singleton_append] at hrest
      simp only [itemLexemes, List.cons_append, List.append_assoc]
      simp only [State.run, State.step, Option.bind_some]
      rw [hfirst, hrest]

/-- Behind a member, taking the lexemes of the others and the end leads behind the
    object. -/
theorem run_memberLexemes (outer : Place) (l : List Token) (done : List (String × Json)) :
    ∀ (members : List (String × Json)) (name : String) (v : Json),
      allMembersTextual members = true →
      (State.after v (.member (named done).reverse (some name) outer)).run
          (memberLexemes members ++ .closeObject :: l) =
        (State.after (.object (done ++ (name, v) :: members)) outer).run l
  | [], name, v, _ => by
      have hobject := objectOf_named (done ++ [(name, v)])
      rw [named, List.map_append, List.reverse_append] at hobject
      simp only [memberLexemes, List.nil_append, State.run, State.step, Option.bind_some]
      rw [← hobject]
      rfl
  | (next, w) :: rest, name, v, h => by
      rw [allMembersTextual, Bool.and_eq_true] at h
      have hfirst := run_lexemes
        (.member ((some name, v) :: (named done).reverse) (some next) outer)
        (memberLexemes rest ++ .closeObject :: l) w h.1
      have hrest := run_memberLexemes outer l (done ++ [(name, v)]) rest next w h.2
      rw [named, List.map_append, List.reverse_append, List.append_assoc,
        List.singleton_append] at hrest
      simp only [memberLexemes, List.cons_append, List.append_assoc]
      simp only [State.run, State.step, Option.bind_some]
      rw [hfirst]
      exact hrest

end

/-- A written value is read as that value. -/
theorem parse?_pretty {v : Json} (h : v.isTextual = true) : parse? v.pretty = some v := by
  have hend : EndsWord [] := rfl
  have htokens := tokens?_write 0 v h hend (l := []) rfl
  have hrun := run_lexemes .top [] v h
  rw [List.append_nil] at htokens hrun
  rw [parse?, pretty, String.toList_ofList, htokens, Option.bind_some, List.append_nil, ofTokens?,
    hrun]
  rfl

end Json

end MailMerge
