import MailMerge.Xml.Tree

/-!
# Reading a Rendered Tree

A tree can be written as XML in many ways. An element without content has two forms, a text
can be spelled out or put into a CDATA section, a character can be written as itself or as a
reference, and comments may stand between any two items. Reading undoes all of them.

A rendering is described item after item. The only thing an item has to know about what
comes before it is whether that is spelled text, since two spelled texts next to each other
would be read as one. A comment between them keeps them apart.

Each piece of markup in a rendering ends at the first `>` that its kind accepts. In a
comment and in a tag there is no other `>` to look at. In a CDATA section there may be many,
but the first one behind `]]` is the one that closes it.

What is read is put where it belongs by the builder, inside of the innermost open element or
at the root. Both places take an element, and nothing else about them matters, so the root
needs no treatment of its own.

## Main definitions

* `entities`: The characters that have a name.
* `Spells`: A text and a way to write its characters.
* `IsName`: The names that can be written in a tag.
* `Rendering`: Some content and a way to write it.
* `Builder.put`: An item put where it belongs.
* `Builder.Leads`: Two places from which reading on comes to the same.

## Theorems

* `unescapeFrom_of_spells`: A spelled text stands for the text.
* `upToClose?_append`, `Cursor.next_markup`: A piece of markup goes up to its end.
* `Cursor.next_comment`, `Cursor.next_cdata`, `Cursor.next_opening`,
  `Cursor.next_selfClosing`, `Cursor.next_closing`, `Cursor.next_text`: The pieces of a
  rendering, each read as one event.
* `Builder.leads_of_rendering`: Reading a rendering puts its content where it belongs.
* `ofXml_of_rendering`: A rendered tree is read as that tree.
-/

namespace MailMerge

namespace Xml

/-! ### Renderings -/

/-- The characters that have a name, and their names. -/
def entities : List (String × Char) :=
  [("amp", '&'), ("lt", '<'), ("gt", '>'), ("apos", '\''), ("quot", '"')]

/-- A text and a way to write it. A character is written as itself, unless it would begin
    markup or a reference, or as a reference by name or by number. -/
inductive Spells : List Char → List Char → Prop where
  | nil : Spells [] []
  | itself {c : Char} {t u : List Char} (ampersand : c ≠ '&') (less : c ≠ '<')
      (rest : Spells t u) : Spells (c :: t) (c :: u)
  | named {c : Char} {t u : List Char} (name : String) (entity : (name, c) ∈ entities)
      (rest : Spells t u) : Spells (c :: t) ('&' :: name.toList ++ ';' :: u)
  | numbered {c : Char} {t u : List Char} (number : List Char)
      (code : characterOf number = .ok c) (rest : Spells t u) :
      Spells (c :: t) ('&' :: '#' :: number ++ ';' :: u)

/-- The names that can be written in a tag. -/
structure IsName (name : String) : Prop where
  nonempty : name ≠ ""
  plain : ∀ c ∈ name.toList, isSpace c = false ∧ c ≠ '<' ∧ c ≠ '>' ∧ c ≠ '/' ∧ c ≠ '"' ∧ c ≠ '\''
  first : name.toList.head? ≠ some '!' ∧ name.toList.head? ≠ some '?'

/-- Some content and a way to write it. `behindText` tells whether spelled text stands right
    before it, which more spelled text could not be told from. -/
inductive Rendering : (behindText : Bool) → List Content → List Char → Prop where
  | nil {behindText : Bool} : Rendering behindText [] []
  | comment {behindText : Bool} {c : List Char} {cs : List Content} {t : List Char}
      (inside : '>' ∉ c) (rest : Rendering false cs t) :
      Rendering behindText cs ("<!--".toList ++ c ++ "-->".toList ++ t)
  | cdata {behindText : Bool} {s : String} {cs : List Content} {t : List Char}
      (inside : ¬ "]]>".toList <:+: s.toList) (rest : Rendering false cs t) :
      Rendering behindText (.text s :: cs)
        ("<![CDATA[".toList ++ s.toList ++ "]]>".toList ++ t)
  | text {s : String} {u : List Char} {cs : List Content} {t : List Char}
      (blank : Text.isBlankText s = false) (spells : Spells s.toList u)
      (rest : Rendering true cs t) : Rendering false (.text s :: cs) (u ++ t)
  | selfClosing {behindText : Bool} {name : String} {cs : List Content} {t : List Char}
      (isName : IsName name) (rest : Rendering false cs t) :
      Rendering behindText (.element ⟨name, []⟩ :: cs)
        ("<".toList ++ name.toList ++ "/>".toList ++ t)
  | paired {behindText : Bool} {name : String} {inner cs : List Content} {u t : List Char}
      (isName : IsName name) (content : Rendering false inner u) (rest : Rendering false cs t) :
      Rendering behindText (.element ⟨name, inner⟩ :: cs)
        ("<".toList ++ name.toList ++ ">".toList ++
          (u ++ ("</".toList ++ name.toList ++ ">".toList ++ t)))

/-! ### Spelled text -/

/-- A reference goes up to its semicolon. -/
theorem unescapeFrom_reference {size offset start : Nat} {seen t rest : List Char} {c : Char}
    (name : List Char) (hname : ∀ x ∈ name, x ≠ '&' ∧ x ≠ ';')
    (hresolve : ∀ stop, resolve (start + 1) stop (seen.reverse ++ name) = .ok c)
    (hrest : ∀ offset, unescapeFrom size offset none t = .ok rest) :
    unescapeFrom size offset (some (start, seen)) (name ++ ';' :: t) = .ok (c :: rest) := by
  induction name generalizing offset seen with
  | nil =>
      have hc := hresolve offset
      rw [List.append_nil] at hc
      simp only [List.nil_append, unescapeFrom, hc, hrest]
      rfl
  | cons x name ih =>
      have hx := hname x List.mem_cons_self
      simp only [List.cons_append, unescapeFrom, hx.1, hx.2, if_false]
      refine ih (fun y hy => hname y (List.mem_cons_of_mem x hy)) fun stop => ?_
      rw [List.reverse_cons, List.append_assoc]
      exact hresolve stop

theorem ne_of_digit? {base d : Nat} {c : Char} (h : digit? base c = some d) :
    c ≠ '&' ∧ c ≠ ';' ∧ c ≠ '<' := by
  refine ⟨?_, ?_, ?_⟩ <;>
    · rintro rfl
      simp [digit?] at h

theorem ne_of_mem_readDigits {base value n : Nat} {number : List Char}
    (h : readDigits base value number = .ok n) :
    ∀ c ∈ number, c ≠ '&' ∧ c ≠ ';' ∧ c ≠ '<' := by
  induction number generalizing value with
  | nil => exact fun c hc => absurd hc List.not_mem_nil
  | cons x number ih =>
      rw [readDigits] at h
      split at h
      · exact absurd h (by simp only [reduceCtorEq, not_false_eq_true])
      · next d hd =>
          split at h
          · intro c hc
            rcases List.mem_cons.mp hc with rfl | hc
            · exact ne_of_digit? hd
            · exact ih h c hc
          · exact absurd h (by simp only [reduceCtorEq, not_false_eq_true])

theorem ne_of_mem_readNumber {base : Nat} {number : List Char} {c : Char}
    (h : (readNumber base number >>= characterOfCode) = .ok c) :
    ∀ x ∈ number, x ≠ '&' ∧ x ≠ ';' ∧ x ≠ '<' := by
  cases hread : readNumber base number with
  | error cause =>
      rw [hread] at h
      exact absurd h (by simp only [bind, Except.bind, reduceCtorEq, not_false_eq_true])
  | ok n =>
      unfold readNumber at hread
      split at hread
      · exact absurd hread (by simp only [reduceCtorEq, not_false_eq_true])
      · exact absurd hread (by simp only [reduceCtorEq, not_false_eq_true])
      · exact absurd hread (by simp only [reduceCtorEq, not_false_eq_true])
      · exact ne_of_mem_readDigits hread

/-- A numeric reference holds nothing that has a meaning of its own. -/
theorem ne_of_mem_characterOf {number : List Char} {c : Char} (h : characterOf number = .ok c) :
    ∀ x ∈ number, x ≠ '&' ∧ x ≠ ';' ∧ x ≠ '<' := by
  unfold characterOf at h
  split at h
  · next hex =>
      intro x hx
      rcases List.mem_cons.mp hx with rfl | hx
      · decide
      · exact ne_of_mem_readNumber h x hx
  · exact ne_of_mem_readNumber h

/-- A named reference is resolved, wherever it stands, and holds nothing that has a meaning
    of its own. -/
theorem resolve_of_mem_entities {c : Char} {name : String}
    (h : (name, c) ∈ entities) :
    (∀ start stop, resolve start stop name.toList = .ok c) ∧
      ∀ x ∈ name.toList, x ≠ '&' ∧ x ≠ ';' ∧ x ≠ '<' := by
  simp only [entities, List.mem_cons, Prod.mk.injEq, List.not_mem_nil, or_false] at h
  rcases h with ⟨rfl, rfl⟩ | ⟨rfl, rfl⟩ | ⟨rfl, rfl⟩ | ⟨rfl, rfl⟩ | ⟨rfl, rfl⟩ <;>
    exact ⟨fun _ _ => rfl, by simp⟩

-- Where a text begins does not matter, as places are told in faults only.
/-- A spelled text stands for the text. -/
theorem unescapeFrom_of_spells {size offset : Nat} {t u : List Char} (h : Spells t u) :
    unescapeFrom size offset none u = .ok t := by
  induction h generalizing offset with
  | nil => rfl
  | itself ampersand less _ ih =>
      simp only [unescapeFrom, ampersand, if_false, ih]
      rfl
  | named name entity _ ih =>
      rcases resolve_of_mem_entities entity with ⟨hresolve, hname⟩
      simp only [List.cons_append, unescapeFrom, if_true]
      exact unescapeFrom_reference _ (fun x hx => ⟨(hname x hx).1, (hname x hx).2.1⟩)
        (fun stop => hresolve _ stop) fun _ => ih
  | numbered number code _ ih =>
      have hnumber := ne_of_mem_characterOf code
      simp only [List.cons_append, unescapeFrom, if_true]
      refine unescapeFrom_reference ('#' :: number) (fun x hx => ?_) (fun stop => ?_)
        fun _ => ih
      · rcases List.mem_cons.mp hx with rfl | hx
        · decide
        · exact ⟨(hnumber x hx).1, (hnumber x hx).2.1⟩
      · simp only [List.reverse_nil, List.nil_append, resolve, code]
        rfl

/-- A spelled text holds no markup. -/
theorem less_not_mem_of_spells {t u : List Char} (h : Spells t u) : '<' ∉ u := by
  induction h with
  | nil => exact List.not_mem_nil
  | itself _ less _ ih =>
      rw [List.mem_cons, not_or]
      exact ⟨Ne.symm less, ih⟩
  | named name entity _ ih =>
      have hname := (resolve_of_mem_entities entity).2
      simp only [List.cons_append, List.mem_cons, List.mem_append, not_or]
      exact ⟨by decide, fun hmem => (hname _ hmem).2.2 rfl, by decide, ih⟩
  | numbered number code _ ih =>
      have hnumber := ne_of_mem_characterOf code
      simp only [List.cons_append, List.mem_cons, List.mem_append, not_or]
      exact ⟨by decide, by decide, fun hmem => (hnumber _ hmem).2.2 rfl, by decide, ih⟩

theorem ne_nil_of_spells {t u : List Char} (h : Spells t u) (ht : t ≠ []) : u ≠ [] := by
  cases h with
  | nil => exact absurd rfl ht
  | itself _ _ _ => exact List.cons_ne_nil _ _
  | named _ _ _ => exact List.cons_ne_nil _ _
  | numbered _ _ _ => exact List.cons_ne_nil _ _

/-! ### Markup -/

theorem upToClose?_append {kind : Kind} {seen content rest : List Char}
    (haccepts : kind.accepts (seen.reverse ++ content) = true)
    (hfirst : ∀ before after, content = before ++ '>' :: after →
      kind.accepts (seen.reverse ++ before) = false) :
    upToClose? kind seen (content ++ '>' :: rest) = some (seen.reverse ++ content, rest) := by
  induction content generalizing seen with
  | nil =>
      rw [List.append_nil] at haccepts
      simp only [List.nil_append, upToClose?, haccepts, decide_true, Bool.and_self, if_true,
        List.append_nil]
  | cons c content ih =>
      have hc : (decide (c = '>') && kind.accepts seen.reverse) = false := by
        by_cases hclose : c = '>'
        · have hno := hfirst [] content (by rw [hclose]; rfl)
          rw [List.append_nil] at hno
          rw [hno, Bool.and_false]
        · rw [decide_eq_false hclose, Bool.false_and]
      have hreverse : seen.reverse ++ c :: content = (c :: seen).reverse ++ content := by
        rw [List.reverse_cons, List.append_assoc, List.singleton_append]
      simp only [List.cons_append, upToClose?, hc, Bool.false_eq_true, if_false]
      rw [hreverse]
      refine ih (hreverse ▸ haccepts) fun before after heq => ?_
      have hno := hfirst (c :: before) after (by rw [heq]; rfl)
      rwa [List.reverse_cons, List.append_assoc, List.singleton_append]

namespace Cursor

variable {offset : Nat} {opened : List String} {rest : List Char}

/-- A piece of markup goes up to the first `>` that its kind accepts. -/
theorem next_markup {kind : Kind} {content : List Char} {opened' : List String} {e : Event}
    (hkind : Kind.of (content ++ '>' :: rest) = .ok kind)
    (haccepts : kind.accepts content = true)
    (hfirst : ∀ before after, content = before ++ '>' :: after → kind.accepts before = false)
    (hevent : event offset opened content kind = .ok (e, opened')) :
    next ⟨'<' :: (content ++ '>' :: rest), offset, opened⟩ =
      .ok (some (e, ⟨rest, offset + Text.byteLength content + 2, opened'⟩)) := by
  have hclose : upToClose? kind [] (content ++ '>' :: rest) = some (content, rest) :=
    upToClose?_append haccepts hfirst
  simp only [next, markup, hkind, hclose, hevent]
  rfl

/-- A piece of markup without any `>` inside. -/
theorem next_markup_of_not_mem {kind : Kind} {content : List Char} {opened' : List String}
    {e : Event} (hkind : Kind.of (content ++ '>' :: rest) = .ok kind)
    (haccepts : kind.accepts content = true) (hmem : '>' ∉ content)
    (hevent : event offset opened content kind = .ok (e, opened')) :
    next ⟨'<' :: (content ++ '>' :: rest), offset, opened⟩ =
      .ok (some (e, ⟨rest, offset + Text.byteLength content + 2, opened'⟩)) := by
  refine next_markup hkind haccepts (fun before after heq => ?_) hevent
  rw [heq] at hmem
  exact absurd (List.mem_append_right before List.mem_cons_self) hmem

theorem next_comment {c : List Char} (h : '>' ∉ c) :
    ∃ offset', next ⟨"<!--".toList ++ c ++ "-->".toList ++ rest, offset, opened⟩ =
      .ok (some (.aside, ⟨rest, offset', opened⟩)) := by
  have heq : "<!--".toList ++ c ++ "-->".toList ++ rest =
      '<' :: ("!--".toList ++ c ++ "--".toList ++ '>' :: rest) := by
    simp only [List.append_assoc]
    rfl
  have hmem : '>' ∉ "!--".toList ++ c ++ "--".toList := by
    simp only [List.mem_append, not_or]
    exact ⟨⟨by decide, h⟩, by decide⟩
  have haccepts : Kind.comment.accepts ("!--".toList ++ c ++ "--".toList) = true := by
    have hlength : ("!--".toList ++ c ++ "--".toList).length = 3 + c.length + 2 := by
      simp only [List.length_append]
      rfl
    simp only [Kind.accepts, Bool.and_eq_true, decide_eq_true_eq, List.isSuffixOf_iff_suffix,
      List.suffix_append, and_true]
    omega
  have hevent : event offset opened ("!--".toList ++ c ++ "--".toList) .comment =
      .ok (.aside, opened) := by
    have hprefix : "!--".toList <+: "!--".toList ++ c ++ "--".toList :=
      ⟨c ++ "--".toList, by rw [List.append_assoc]⟩
    simp only [event, List.isPrefixOf_iff_prefix.mpr hprefix, if_true]
  rw [heq]
  exact ⟨_, next_markup_of_not_mem rfl haccepts hmem hevent⟩

/-- A CDATA section closes at the first `]]>`, whatever stands before it. -/
theorem accepts_cdata_before {s before after : List Char} (h : ¬ "]]>".toList <:+: s)
    (heq : "![CDATA[".toList ++ s ++ "]]".toList = before ++ '>' :: after) :
    Kind.cdata.accepts before = false := by
  rw [Kind.accepts, Bool.eq_false_iff, ne_eq, List.isSuffixOf_iff_suffix]
  rintro ⟨p, rfl⟩
  apply h
  rw [List.append_assoc, List.append_assoc] at heq
  -- The two brackets are not those of the beginning, which are apart.
  have hinside : ∃ q, s ++ "]]".toList = q ++ "]]".toList ++ '>' :: after := by
    rcases List.append_eq_append_iff.mp heq with ⟨q, _, hq⟩ | ⟨q, hopen, hq⟩
    · exact ⟨q, by rw [hq, List.append_assoc]⟩
    · cases q with
      | nil => exact ⟨[], hq.symm⟩
      | cons x q =>
          have hx : ']' = x := (List.cons.inj hq).1
          have hmem : ']' ∈ "![CDATA[".toList :=
            hopen ▸ List.mem_append_right p (hx ▸ List.mem_cons_self)
          exact absurd hmem (by decide)
  -- The `>` is not one of the brackets at the end.
  rcases hinside with ⟨q, hinside⟩
  rcases List.append_eq_append_iff.mp hinside with ⟨r, _, hr⟩ | ⟨r, hs, hr⟩
  · have hmem : '>' ∈ "]]".toList := hr ▸ List.mem_append_right r List.mem_cons_self
    exact absurd hmem (by decide)
  · cases r with
    | nil => exact absurd (List.cons.inj hr).1 (by decide)
    | cons x r =>
        have hx : '>' = x := (List.cons.inj hr).1
        exact ⟨q, r, by rw [hs, ← hx, List.append_assoc, List.append_assoc]; rfl⟩

theorem next_cdata {s : String} (h : ¬ "]]>".toList <:+: s.toList) :
    ∃ offset', next ⟨"<![CDATA[".toList ++ s.toList ++ "]]>".toList ++ rest, offset, opened⟩ =
      .ok (some (.cdata s, ⟨rest, offset', opened⟩)) := by
  have heq : "<![CDATA[".toList ++ s.toList ++ "]]>".toList ++ rest =
      '<' :: ("![CDATA[".toList ++ s.toList ++ "]]".toList ++ '>' :: rest) := by
    simp only [List.append_assoc]
    rfl
  have haccepts : Kind.cdata.accepts ("![CDATA[".toList ++ s.toList ++ "]]".toList) = true := by
    simp only [Kind.accepts, List.isSuffixOf_iff_suffix, List.suffix_append]
  have hevent : event offset opened ("![CDATA[".toList ++ s.toList ++ "]]".toList) .cdata =
      .ok (.cdata s, opened) := by
    have hstrip : Text.strip? "![CDATA[".toList ("![CDATA[".toList ++ s.toList ++ "]]".toList) =
        some (s.toList ++ "]]".toList) :=
      Text.strip?_eq_some_iff.mpr (List.append_assoc _ _ _)
    have hlength : (s.toList ++ "]]".toList).length - 2 = s.toList.length := by
      rw [List.length_append]
      rfl
    simp only [event, hstrip, hlength, List.take_left, String.ofList_toList]
  rw [heq]
  exact ⟨_, next_markup rfl haccepts (fun _ _ => accepts_cdata_before h) hevent⟩

/-! ### Tags -/

theorem kind_of_cons {x : Char} (h : x ≠ '!' ∧ x ≠ '?' ∧ x ≠ '/') (t : List Char) :
    Kind.of (x :: t) = .ok .openingTag := by
  have hne : ∀ {y : Char} {u : List Char}, x ≠ y → x :: t = y :: u → False :=
    fun hxy heq => hxy (List.cons.inj heq).1
  exact Kind.of.eq_9 _ (fun hnil => List.cons_ne_nil x t hnil) (fun _ => hne h.1)
    (fun _ => hne h.1) (fun _ => hne h.1) (fun _ => hne h.1) (fun _ => hne h.1)
    (fun _ => hne h.2.1) fun _ => hne h.2.2

/-- A tag without quotation marks has none that is open. -/
theorem openQuote_eq_none {t : List Char} (h : ∀ c ∈ t, c ≠ '"' ∧ c ≠ '\'') :
    Kind.openQuote t = none := by
  rw [Kind.openQuote]
  induction t with
  | nil => rfl
  | cons c t ih =>
      have hc := h c List.mem_cons_self
      simp only [List.foldl_cons, hc.1, hc.2, or_self, if_false]
      exact ih fun x hx => h x (List.mem_cons_of_mem c hx)

section

variable {name : String} (hname : IsName name)

include hname

theorem kind_of_name (t : List Char) : Kind.of (name.toList ++ t) = .ok .openingTag := by
  have hfirst := hname.first
  cases hlist : name.toList with
  | nil => exact absurd (String.toList_eq_nil_iff.mp hlist) hname.nonempty
  | cons x l =>
      have hplain := hname.plain x (hlist ▸ List.mem_cons_self)
      rw [hlist, List.head?_cons, ne_eq, ne_eq, Option.some.injEq, Option.some.injEq] at hfirst
      exact kind_of_cons ⟨hfirst.1, hfirst.2, hplain.2.2.2.1⟩ (l ++ t)

/-- What a tag holds beside its name, a slash at most, leaves no quotation mark open. -/
theorem tag_of_name (content : List Char) (h : ∀ c ∈ content, c ∈ name.toList ∨ c = '/') :
    '>' ∉ content ∧ Kind.openQuote content = none := by
  have hplain : ∀ c ∈ content, c ≠ '>' ∧ c ≠ '"' ∧ c ≠ '\'' := by
    intro c hc
    rcases h c hc with hc | rfl
    · have := hname.plain c hc
      exact ⟨this.2.2.1, this.2.2.2.2⟩
    · decide
  exact ⟨fun hmem => (hplain _ hmem).1 rfl, openQuote_eq_none fun c hc => (hplain c hc).2⟩

theorem openingName_name : openingName name.toList = name := by
  have hall : ∀ c ∈ name.toList, (!isSpace c) = true := by
    intro c hc
    rw [(hname.plain c hc).1, Bool.not_false]
  rw [openingName, ← List.append_nil name.toList, List.takeWhile_append_of_pos hall,
    List.takeWhile_nil, List.append_nil, String.ofList_toList]

theorem closingName_name : closingName ('/' :: name.toList) = name := by
  have hstrip : (name.toList.reverse.dropWhile isSpace).reverse = name.toList := by
    cases hlist : name.toList.reverse with
    | nil => rw [List.dropWhile_nil, List.reverse_nil, List.reverse_eq_nil_iff.mp hlist]
    | cons x l =>
        have hx : isSpace x = false :=
          (hname.plain x (List.mem_reverse.mp (hlist ▸ List.mem_cons_self))).1
        rw [List.dropWhile_cons_of_neg (by rw [hx]; exact Bool.false_ne_true), ← hlist,
          List.reverse_reverse]
  simp only [closingName, List.drop_succ_cons, List.drop_zero, hstrip]
  cases hlist : name.toList with
  | nil => exact absurd (String.toList_eq_nil_iff.mp hlist) hname.nonempty
  | cons x l =>
      simp only []
      rw [← hlist, String.ofList_toList]

theorem next_opening :
    ∃ offset', next ⟨"<".toList ++ name.toList ++ ">".toList ++ rest, offset, opened⟩ =
      .ok (some (.opening name, ⟨rest, offset', name :: opened⟩)) := by
  have heq : "<".toList ++ name.toList ++ ">".toList ++ rest =
      '<' :: (name.toList ++ '>' :: rest) := by
    simp only [List.append_assoc]
    rfl
  rcases tag_of_name hname name.toList (fun c hc => Or.inl hc) with ⟨hmem, hquote⟩
  have haccepts : Kind.openingTag.accepts name.toList = true := by
    rw [Kind.accepts, hquote, Option.isNone_none]
  have hslash : "/".toList.isSuffixOf name.toList = false := by
    rw [Bool.eq_false_iff, ne_eq, List.isSuffixOf_iff_suffix]
    rintro ⟨before, heq⟩
    have hslash : '/' ∈ name.toList := heq ▸ List.mem_append_right before List.mem_cons_self
    exact (hname.plain _ hslash).2.2.2.1 rfl
  have hevent : event offset opened name.toList .openingTag =
      .ok (.opening name, name :: opened) := by
    simp only [event, hslash, Bool.false_eq_true, if_false, openingName_name hname]
  rw [heq]
  exact ⟨_, next_markup_of_not_mem (kind_of_name hname _) haccepts hmem hevent⟩

theorem next_selfClosing :
    ∃ offset', next ⟨"<".toList ++ name.toList ++ "/>".toList ++ rest, offset, opened⟩ =
      .ok (some (.selfClosing name, ⟨rest, offset', opened⟩)) := by
  have heq : "<".toList ++ name.toList ++ "/>".toList ++ rest =
      '<' :: (name.toList ++ ['/'] ++ '>' :: rest) := by
    simp only [List.append_assoc]
    rfl
  rcases tag_of_name hname (name.toList ++ ['/'])
    (fun c hc => (List.mem_append.mp hc).imp_right List.mem_singleton.mp) with ⟨hmem, hquote⟩
  have hkind : Kind.of (name.toList ++ ['/'] ++ '>' :: rest) = .ok .openingTag := by
    rw [List.append_assoc]
    exact kind_of_name hname _
  have haccepts : Kind.openingTag.accepts (name.toList ++ ['/']) = true := by
    rw [Kind.accepts, hquote, Option.isNone_none]
  have hevent : event offset opened (name.toList ++ ['/']) .openingTag =
      .ok (.selfClosing name, opened) := by
    have hslash : "/".toList.isSuffixOf (name.toList ++ ['/']) = true :=
      List.isSuffixOf_iff_suffix.mpr ⟨name.toList, rfl⟩
    simp only [event, hslash, if_true, List.dropLast_concat, openingName_name hname]
  rw [heq]
  exact ⟨_, next_markup_of_not_mem hkind haccepts hmem hevent⟩

theorem next_closing {outer : List String} :
    ∃ offset', next ⟨"</".toList ++ name.toList ++ ">".toList ++ rest, offset, name :: outer⟩ =
      .ok (some (.closing name, ⟨rest, offset', outer⟩)) := by
  have heq : "</".toList ++ name.toList ++ ">".toList ++ rest =
      '<' :: ('/' :: name.toList ++ '>' :: rest) := by
    simp only [List.append_assoc]
    rfl
  rcases tag_of_name hname ('/' :: name.toList)
    (fun c hc => (List.mem_cons.mp hc).symm) with ⟨hmem, hquote⟩
  have haccepts : Kind.closingTag.accepts ('/' :: name.toList) = true := by
    rw [Kind.accepts, hquote, Option.isNone_none]
  have hevent : event offset (name :: outer) ('/' :: name.toList) .closingTag =
      .ok (.closing name, outer) := by
    simp only [event, closingName_name hname, close, if_true]
  rw [heq]
  exact ⟨_, next_markup_of_not_mem rfl haccepts hmem hevent⟩

end

/-- Text goes up to the next markup. -/
theorem next_text {u : List Char} (hne : u ≠ []) (hless : '<' ∉ u)
    (hrest : ∀ x ∈ rest.head?, x = '<') :
    next ⟨u ++ rest, offset, opened⟩ =
      .ok (some (.text u, ⟨rest, offset + Text.byteLength u, opened⟩)) := by
  have hall : ∀ c ∈ u, decide (c ≠ '<') = true := by
    intro c hc
    rw [decide_eq_true_eq]
    rintro rfl
    exact hless hc
  have htake : (u ++ rest).takeWhile (fun c => decide (c ≠ '<')) = u := by
    rw [List.takeWhile_append_of_pos hall]
    cases rest with
    | nil => exact List.append_nil u
    | cons x l =>
        have hx : x = '<' := hrest x rfl
        subst hx
        exact List.append_nil u
  have hdrop : (u ++ rest).dropWhile (fun c => decide (c ≠ '<')) = rest := by
    have := List.takeWhile_append_dropWhile (p := fun c => decide (c ≠ '<')) (l := u ++ rest)
    rw [htake] at this
    exact List.append_cancel_left this
  cases u with
  | nil => exact absurd rfl hne
  | cons x u =>
      have hx : x ≠ '<' := fun hx => hless (hx ▸ List.mem_cons_self)
      rw [List.cons_append, List.takeWhile_cons, decide_eq_true hx, if_pos rfl,
        List.cons.injEq] at htake
      rw [List.cons_append, List.dropWhile_cons, decide_eq_true hx, if_pos rfl] at hdrop
      rw [next]
      split
      · next hnil => exact absurd hnil (List.cons_ne_nil x (u ++ rest))
      · next t hcons => exact absurd (List.cons.inj hcons).1 hx
      · next first t _ hcons =>
          simp only [List.cons_append, List.cons.injEq] at hcons
          rcases hcons with ⟨rfl, rfl⟩
          rw [htake.2, hdrop]

end Cursor

/-! ### Content -/

/-- Where nothing but markup can stand, a rendering begins with markup if it is not empty. -/
theorem head?_of_rendering {behindText : Bool} {cs : List Content} {t : List Char}
    (h : Rendering behindText cs t) (hmarkup : behindText = true ∨ ∀ s l, cs ≠ .text s :: l) :
    ∀ x ∈ t.head?, x = '<' := by
  cases h with
  | nil => exact fun x hx => absurd hx (by simp)
  | text _ _ _ =>
      rcases hmarkup with hmarkup | hmarkup
      · exact absurd hmarkup Bool.false_ne_true
      · exact absurd rfl (hmarkup _ _)
  | _ => exact fun x hx => (Option.some.inj hx).symm

namespace Builder

/-- An item put into the innermost open element. Outside of all elements there is a place
    for one element only. -/
def put (b : Builder) (item : Content) : Option Builder :=
  match b.opened, b.root, item with
  | parent :: outer, _, item => some (addTo item parent outer b)
  | [], none, .element e => some { b with root := some e }
  | [], _, _ => none

variable {b b' : Builder}

theorem place_of_put {e : Element} (h : b.put (.element e) = some b') (offset : Nat) :
    b.place offset e = .ok b' := by
  rcases b with ⟨_ | ⟨parent, outer⟩, _ | root⟩ <;>
    simp only [put, Option.some.injEq, reduceCtorEq] at h <;>
    simp only [place, h]

theorem addText_of_put {s : String} (h : b.put (.text s) = some b') (offset : Nat) :
    b.addText offset s = .ok b' := by
  rcases b with ⟨_ | ⟨parent, outer⟩, _ | root⟩ <;>
    simp only [put, Option.some.injEq, reduceCtorEq] at h <;>
    simp only [addText, h]

theorem exists_put_of_foldlM_cons {item : Content} {cs : List Content}
    (h : (item :: cs).foldlM put b = some b') :
    ∃ b₁, b.put item = some b₁ ∧ cs.foldlM put b₁ = some b' := by
  rw [List.foldlM_cons] at h
  exact Option.bind_eq_some_iff.mp h

/-- Inside of an element all items are put at the end of its content. -/
theorem foldlM_put (cs : List Content) (parent : Element) (outer : List Element)
    (root : Option Element) : cs.foldlM put ⟨parent :: outer, root⟩ =
      some ⟨⟨parent.name, parent.content ++ cs⟩ :: outer, root⟩ := by
  induction cs generalizing parent with
  | nil =>
      rw [List.append_nil]
      cases parent
      rfl
  | cons c cs ih =>
      rw [List.foldlM_cons]
      refine (ih ⟨parent.name, parent.content ++ [c]⟩).trans ?_
      rw [List.append_assoc, List.singleton_append]

/-- Where an element can be put, it can also be opened. -/
theorem accept_opening_of_put {e : Element} (h : b.put (.element e) = some b') (offset : Nat)
    (name : String) :
    b.accept offset (.opening name) = .ok { b with opened := ⟨name, []⟩ :: b.opened } := by
  rcases b with ⟨_ | ⟨parent, outer⟩, _ | root⟩ <;>
    simp only [put, Option.some.injEq, reduceCtorEq] at h <;>
    simp only [accept, List.isEmpty_nil, List.isEmpty_cons, Option.isSome_none, Bool.and_false,
      Bool.false_and, Bool.false_eq_true, if_false]

/-- Whether reading on at one place gives the same tree or fault as reading on at another
    place with another builder. -/
def Leads (b : Builder) (t : List Char) (opened : List String) (b' : Builder) (t' : List Char)
    (opened' : List String) : Prop :=
  ∀ offset, ∃ offset', b.run (Trace.onward ⟨t, offset, opened⟩) =
    b'.run (Trace.onward ⟨t', offset', opened'⟩)

variable {t t' t'' : List Char} {opened opened' opened'' : List String}

theorem Leads.trans {b'' : Builder} (h : b.Leads t opened b' t' opened')
    (h' : b'.Leads t' opened' b'' t'' opened'') : b.Leads t opened b'' t'' opened'' := by
  intro offset
  rcases h offset with ⟨offset', hrun⟩
  rcases h' offset' with ⟨offset'', hrun'⟩
  exact ⟨offset'', hrun.trans hrun'⟩

theorem leads_next {e : Event}
    (hnext : ∀ offset, ∃ offset', Cursor.next ⟨t, offset, opened⟩ =
      .ok (some (e, ⟨t', offset', opened'⟩)))
    (haccept : ∀ offset, b.accept offset e = .ok b') : b.Leads t opened b' t' opened' := by
  intro offset
  rcases hnext offset with ⟨offset', hstep⟩
  exact ⟨offset', run_onward hstep (haccept offset)⟩

/-- Reading a rendering puts its content where it belongs. Behind it there is markup or the
    end of the text. -/
theorem leads_of_rendering {behindText : Bool} {cs : List Content} {rest : List Char}
    (h : Rendering behindText cs t) (hput : cs.foldlM put b = some b')
    (hrest : ∀ x ∈ rest.head?, x = '<') : b.Leads (t ++ rest) opened b' rest opened := by
  induction h generalizing b b' rest opened with
  | nil =>
      rw [List.foldlM_nil, Option.pure_def, Option.some.injEq] at hput
      rw [hput]
      exact fun offset => ⟨offset, rfl⟩
  | comment inside _ ih =>
      rw [List.append_assoc]
      exact (leads_next (fun _ => Cursor.next_comment inside) fun _ => rfl).trans (ih hput hrest)
  | cdata inside _ ih =>
      rcases exists_put_of_foldlM_cons hput with ⟨b₁, hitem, hput⟩
      rw [List.append_assoc]
      exact (leads_next (fun _ => Cursor.next_cdata inside) (addText_of_put hitem)).trans
        (ih hput hrest)
  | @text s u cs t blank spells hcontent ih =>
      rcases exists_put_of_foldlM_cons hput with ⟨b₁, hitem, hput⟩
      rw [List.append_assoc]
      -- No more spelled text follows, so this one ends where markup begins.
      have hbehind : ∀ x ∈ (t ++ rest).head?, x = '<' := by
        intro x hx
        cases t with
        | nil => exact hrest x hx
        | cons y l => exact head?_of_rendering hcontent (Or.inl rfl) x hx
      have hne : u ≠ [] := by
        refine ne_nil_of_spells spells fun hnil => ?_
        rw [Text.isBlankText, hnil] at blank
        exact absurd blank (by simp only [List.all_nil, Bool.true_eq_false, not_false_eq_true])
      have haccept : ∀ offset, b.accept offset (.text u) = .ok b₁ := by
        intro offset
        have hread : unescape u = .ok s.toList := unescapeFrom_of_spells spells
        have hblank : s.toList.all Text.isBlank = false := blank
        simp only [accept, hread, hblank, String.ofList_toList, Bool.false_eq_true, if_false]
        exact addText_of_put hitem offset
      exact (leads_next (fun _ => ⟨_, Cursor.next_text hne (less_not_mem_of_spells spells) hbehind⟩)
        haccept).trans (ih hput hrest)
  | selfClosing isName _ ih =>
      rcases exists_put_of_foldlM_cons hput with ⟨b₁, hitem, hput⟩
      rw [List.append_assoc]
      exact (leads_next (fun _ => Cursor.next_selfClosing isName) (place_of_put hitem)).trans
        (ih hput hrest)
  | @paired behindText name inner cs u t isName _ _ ihInner ih =>
      rcases exists_put_of_foldlM_cons hput with ⟨b₁, hitem, hput⟩
      -- While its content is read the element is open, and it is put where it belongs only
      -- when it closes.
      have hinner : inner.foldlM put { b with opened := ⟨name, []⟩ :: b.opened } =
          some { b with opened := ⟨name, inner⟩ :: b.opened } :=
        foldlM_put inner ⟨name, []⟩ b.opened b.root
      have haccept : ∀ offset, accept offset { b with opened := ⟨name, inner⟩ :: b.opened }
          (.closing name) = .ok b₁ := fun offset => place_of_put hitem offset
      have hopening : b.Leads
          ("<".toList ++ name.toList ++ ">".toList ++
            (u ++ ("</".toList ++ name.toList ++ ">".toList ++ (t ++ rest)))) opened
          { b with opened := ⟨name, []⟩ :: b.opened }
          (u ++ ("</".toList ++ name.toList ++ ">".toList ++ (t ++ rest))) (name :: opened) :=
        leads_next (fun _ => Cursor.next_opening isName)
          fun offset => accept_opening_of_put hitem offset name
      have hclosing : Leads { b with opened := ⟨name, inner⟩ :: b.opened }
          ("</".toList ++ name.toList ++ ">".toList ++ (t ++ rest)) (name :: opened) b₁
          (t ++ rest) opened :=
        leads_next (fun _ => Cursor.next_closing isName) haccept
      have hcontent := hopening.trans ((ihInner hinner fun x hx => ?_).trans hclosing)
      · simp only [List.append_assoc] at hcontent ⊢
        exact hcontent.trans (ih hput hrest)
      · exact (Option.some.inj hx).symm

end Builder

theorem start_of_head? {t : List Char} (h : ∀ x ∈ t.head?, x = '<') :
    Cursor.start (String.ofList t) = ⟨t, 0, []⟩ := by
  rw [Cursor.start, String.toList_ofList]
  split
  · exact absurd (h _ rfl) (by decide)
  · rfl

/-- A rendered tree is read as that tree. -/
theorem ofXml_of_rendering {root : Element} {t : List Char}
    (h : Rendering false [.element root] t) : Element.ofXml (String.ofList t) = .ok root := by
  have hmarkup := head?_of_rendering h (Or.inr fun s l heq => by simp at heq)
  have hput : [Content.element root].foldlM Builder.put Builder.empty = some ⟨[], some root⟩ := rfl
  have hread : Builder.empty.Leads (t ++ []) [] ⟨[], some root⟩ [] [] :=
    Builder.leads_of_rendering h hput (fun x hx => absurd hx (Option.some_ne_none x).symm)
  rcases hread 0 with ⟨offset', hrun⟩
  rw [List.append_nil] at hrun
  rw [Element.ofXml, Trace.of, start_of_head? hmarkup, hrun, Trace.onward]
  rfl

/-- A tree with a text next to another one, and with an element that has no content. -/
def comparison : Element := ⟨"a", [.text "1<2", .text "&", .text " ", .element ⟨"b", []⟩]⟩

/-- The same tree as a text, with all the ways to write an item. -/
def writtenComparison : List Char :=
  "<a>1&lt;&#50;<!--c--->&amp;<![CDATA[ ]]><b/></a><!---->".toList

theorem rendering_comparison : Rendering false [.element comparison] writtenComparison := by
  have hname : IsName "a" := ⟨by decide, by simp [isSpace], by decide⟩
  have hname' : IsName "b" := ⟨by decide, by simp [isSpace], by decide⟩
  have hnumber : characterOf "50".toList = .ok '2' := rfl
  have hless : Spells "1<2".toList ("1&lt;&#50;".toList) :=
    .itself (by decide) (by decide) (.named "lt" (by decide)
      (.numbered "50".toList hnumber .nil))
  have hamp : Spells "&".toList "&amp;".toList := .named "amp" (by decide) .nil
  have hinner : Rendering false comparison.content
      "1&lt;&#50;<!--c--->&amp;<![CDATA[ ]]><b/>".toList :=
    .text (by decide) hless (.comment (c := "c-".toList) (by decide) (.text (by decide) hamp
      (.cdata (s := " ") (by decide) (.selfClosing hname' .nil))))
  exact .paired hname hinner (.comment (c := []) (by decide) .nil)

theorem ofXml_writtenComparison :
    Rendering false [.element comparison] writtenComparison ∧
      Element.ofXml (String.ofList writtenComparison) = .ok comparison :=
  ⟨rendering_comparison, ofXml_of_rendering rendering_comparison⟩

end Xml

end MailMerge
