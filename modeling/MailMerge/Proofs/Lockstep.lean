import MailMerge.Proofs.EventTree

/-!
# Two Stacks in Step

Reading an XML text keeps two stacks. The cursor has the names of the tags that are open, as a
closing tag must name the one opened last. The builder has the elements that are open, as an
item goes into the innermost one. Neither looks at the other. They agree all the same, as
both move with the events, and there is no event with which only one of them moves: an element
without content is put where it belongs and is never open for either. So a closing tag that the
cursor lets pass finds an element with the builder.

A fault with a place is found at the cursor. The event that begins there cannot be read, or it
can be read and the builder does not accept it. All that stands before that place was read and
accepted, one event behind the other, and each of these took a byte at least. So reading comes
to an end, and no fault is placed behind the end of the text.

## Main definitions

* `Progress`: How far reading a text has come.
* `FailsAt`: Whether the event that begins at a place gives a fault.
* `InStep`: What a cursor and a builder have in common while a text is read.

## Theorems

* `Cursor.next_eq_error`, `Builder.accept_eq_error`: The faults of one event.
* `Builder.names_of_accept`: How an event moves the builder's stack.
* `InStep.take`, `Progress.inStep`: One event keeps the stacks in step, and so do all.
* `InStep.ne_strayClose`: A closing tag that can be read finds an open element.
* `Progress.exists_end`: Reading comes to an end.
* `reading_in_step`: What holds at each moment of reading, and where faults are found.
-/

namespace MailMerge

namespace Xml

/-! ### The faults of one event -/

namespace Cursor

theorem start_rest (s : String) : s.toList = '\uFEFF' :: (start s).rest ∨
    s.toList = (start s).rest ∧ (start s).rest.head? ≠ some '\uFEFF' := by
  rw [start]
  split
  · next t ht => exact Or.inl ht
  · next hmark =>
      refine Or.inr ⟨rfl, fun hhead => ?_⟩
      rcases List.head?_eq_some_iff.mp hhead with ⟨t, ht⟩
      exact hmark t ht

theorem event_eq_error {offset : Nat} {opened : List String} {content : List Char} {kind : Kind}
    {fault : Fault} (h : event offset opened content kind = .error fault) :
    (∃ cause, fault = .markup offset cause) ∨ ∃ cause, fault = .nesting offset cause := by
  cases kind with
  | closingTag =>
      simp only [event, close] at h
      repeat' split at h
      all_goals
        simp only [reduceCtorEq, Except.error.injEq] at h
      all_goals
        exact Or.inr ⟨_, h.symm⟩
  | doctype =>
      simp only [event] at h
      repeat' split at h
      all_goals
        simp only [reduceCtorEq, Except.error.injEq] at h
      · exact Or.inr ⟨_, h.symm⟩
      · exact Or.inl ⟨_, h.symm⟩
  | _ =>
      simp only [event] at h
      repeat' split at h
      all_goals
        simp only [reduceCtorEq, Except.error.injEq] at h
      all_goals
        exact Or.inl ⟨_, h.symm⟩

/-- An event that cannot be read begins at the cursor, and its fault is placed there. -/
theorem next_eq_error {c : Cursor} {fault : Fault} (h : c.next = .error fault) :
    c.rest ≠ [] ∧
      ((∃ cause, fault = .markup c.offset cause) ∨ ∃ cause, fault = .nesting c.offset cause) := by
  rw [next] at h
  split at h
  · simp only [reduceCtorEq] at h
  · next t hrest =>
      refine ⟨hrest ▸ List.cons_ne_nil _ _, ?_⟩
      cases hmarkup : c.markup t with
      | ok r => simp only [hmarkup, Except.map, reduceCtorEq] at h
      | error fault' =>
          simp only [hmarkup, Except.map, Except.error.injEq] at h
          subst h
          rw [markup] at hmarkup
          split at hmarkup
          · exact Or.inl ⟨_, (Except.error.inj hmarkup).symm⟩
          · split at hmarkup
            · exact Or.inl ⟨_, (Except.error.inj hmarkup).symm⟩
            · next content rest _ =>
                cases hevent : event c.offset c.opened content ‹Kind› with
                | ok r => simp only [hevent, Except.map, reduceCtorEq] at hmarkup
                | error fault'' =>
                    simp only [hevent, Except.map, Except.error.injEq] at hmarkup
                    exact hmarkup ▸ event_eq_error hevent
  · simp only [reduceCtorEq] at h

theorem next_eq_none_iff {c : Cursor} : c.next = .ok none ↔ c.rest = [] := by
  rw [next]
  split
  · next h => simp only [h]
  · next t h =>
      rw [h]
      cases c.markup t <;> simp only [Except.map, Except.ok.injEq, reduceCtorEq]
  · next h => simp only [h, Except.ok.injEq, reduceCtorEq]

end Cursor

namespace Builder

variable {offset : Nat} {b b' : Builder} {e : Event} {fault : Fault}

theorem place_eq_error {x : Element} (h : b.place offset x = .error fault) :
    fault = .secondRoot offset := by
  rcases b with ⟨_ | ⟨parent, outer⟩, _ | root⟩ <;>
    simp only [place, reduceCtorEq, Except.error.injEq] at h
  exact h.symm

theorem addText_eq_error {s : String} (h : b.addText offset s = .error fault) :
    fault = .textOutsideRoot offset := by
  rcases b with ⟨_ | ⟨parent, outer⟩, root⟩ <;>
    simp only [addText, reduceCtorEq, Except.error.injEq] at h
  exact h.symm

/-- Why an event is not accepted. A fault with a place has the place of the event. -/
theorem accept_eq_error (h : b.accept offset e = .error fault) :
    (∃ cause, fault = .escape cause) ∨ fault = .secondRoot offset ∨
      fault = .textOutsideRoot offset ∨
      fault = .strayClose offset ∧ b.opened = [] ∧ ∃ name, e = .closing name := by
  cases e with
  | opening name =>
      rw [accept] at h
      split at h
      · exact Or.inr (Or.inl (Except.error.inj h).symm)
      · simp only [reduceCtorEq] at h
  | selfClosing name => exact Or.inr (Or.inl (place_eq_error h))
  | closing name =>
      rw [accept] at h
      split at h
      · exact Or.inr (Or.inl (place_eq_error h))
      · next hopened =>
          exact Or.inr (Or.inr (Or.inr ⟨(Except.error.inj h).symm, hopened, name, rfl⟩))
  | text written =>
      rw [accept] at h
      split at h
      · exact Or.inl ⟨_, (Except.error.inj h).symm⟩
      · split at h
        · simp only [reduceCtorEq] at h
        · exact Or.inr (Or.inr (Or.inl (addText_eq_error h)))
  | cdata content => exact Or.inr (Or.inr (Or.inl (addText_eq_error h)))
  | aside => simp only [accept, reduceCtorEq] at h

theorem offset?_of_finish_eq_error (h : b.finish = .error fault) : fault.offset? = none := by
  rw [finish] at h
  split at h
  · exact Except.error.inj h ▸ rfl
  · simp only [reduceCtorEq] at h
  · exact Except.error.inj h ▸ rfl

/-- The names of the open elements, the innermost first. -/
def names (b : Builder) : List String := b.opened.map Element.name

-- An item that is put into an element leaves its name as it is.
theorem names_of_place {x : Element} (h : b.place offset x = .ok b') : b'.names = b.names := by
  rcases b with ⟨_ | ⟨parent, outer⟩, _ | root⟩ <;>
    simp only [place, reduceCtorEq, Except.ok.injEq] at h <;>
    exact h ▸ rfl

theorem names_of_addText {s : String} (h : b.addText offset s = .ok b') : b'.names = b.names := by
  rcases b with ⟨_ | ⟨parent, outer⟩, root⟩ <;>
    simp only [addText, reduceCtorEq, Except.ok.injEq] at h
  exact h ▸ rfl

/-- How an event moves the stack of a builder. -/
theorem names_of_accept (h : b.accept offset e = .ok b') : b'.names = e.namesBehind b.names := by
  cases e with
  | opening name =>
      rw [accept] at h
      split at h
      · simp only [reduceCtorEq] at h
      · exact Except.ok.inj h ▸ rfl
  | selfClosing name => exact names_of_place h
  | closing name =>
      rw [accept] at h
      split at h
      · next x outer hopened =>
          rw [names_of_place h, names, names, hopened]
          rfl
      · simp only [reduceCtorEq] at h
  | text written =>
      rw [accept] at h
      split at h
      · simp only [reduceCtorEq] at h
      · split at h
        · exact Except.ok.inj h ▸ rfl
        · exact names_of_addText h
  | cdata content => exact names_of_addText h
  | aside => exact Except.ok.inj h ▸ rfl

end Builder

/-! ### Moments of reading -/

/-- How far reading a text has come: the events that were read and accepted, each with its
    offset, the place from which the next one is read, and the builder behind them. -/
inductive Progress (s : String) : List (Nat × Event) → Cursor → Builder → Prop where
  | start : Progress s [] (Cursor.start s) .empty
  | take {taken : List (Nat × Event)} {c c' : Cursor} {b b' : Builder} {e : Event}
      (sofar : Progress s taken c b) (next : c.next = .ok (some (e, c')))
      (accept : b.accept c.offset e = .ok b') : Progress s (taken ++ [(c.offset, e)]) c' b'

/-- Whether the event that begins at a place gives a fault, as it cannot be read or is not
    accepted. -/
def FailsAt (c : Cursor) (b : Builder) (fault : Fault) : Prop :=
  c.next = .error fault ∨ ∃ e c', c.next = .ok (some (e, c')) ∧ b.accept c.offset e = .error fault

/-- What a cursor and a builder have in common behind some events of a text: the names of what is
    open, which the events alone tell, and the place up to which the events take the text. -/
structure InStep (text : List Char) (taken : List (Nat × Event)) (c : Cursor) (b : Builder) :
    Prop where
  names : b.names = c.opened
  opened : c.opened = namesOpen (taken.map Prod.snd)
  place : ∃ before, text = before ++ c.rest ∧ Text.byteLength before = c.offset
  earlier : ∀ x ∈ taken, x.1 < c.offset
  length_le : taken.length ≤ c.offset

theorem inStep_start (s : String) : InStep (Cursor.start s).rest [] (Cursor.start s) .empty := by
  have hopened := Cursor.start_opened s
  exact ⟨hopened.symm, hopened, ⟨[], rfl, (Cursor.start_offset s).symm⟩,
    fun _ h => absurd h List.not_mem_nil, Nat.zero_le _⟩

/-- An event that is read and accepted keeps the two stacks in step. -/
theorem InStep.take {text : List Char} {taken : List (Nat × Event)} {c c' : Cursor}
    {b b' : Builder} {e : Event} (h : InStep text taken c b) (next : c.next = .ok (some (e, c')))
    (accept : b.accept c.offset e = .ok b') : InStep text (taken ++ [(c.offset, e)]) c' b' := by
  have hopened : c'.opened = e.namesBehind c.opened := (Cursor.opened_next next).1
  have hlt := Cursor.offset_lt_of_next next
  refine ⟨?_, ?_, ?_, fun x hx => ?_, ?_⟩
  · rw [Builder.names_of_accept accept, h.names, hopened]
  · rw [List.map_append, List.map_singleton, namesOpen_concat, hopened, h.opened]
  · rcases h.place with ⟨before, htext, hoffset⟩
    rcases Cursor.exists_append_of_next next with ⟨read, _, hrest, hoffset'⟩
    refine ⟨before ++ read, ?_, ?_⟩
    · rw [htext, hrest, List.append_assoc]
    · rw [Text.byteLength_append, hoffset, hoffset']
  · rcases List.mem_append.mp hx with hx | hx
    · exact Nat.lt_trans (h.earlier x hx) hlt
    · exact List.mem_singleton.mp hx ▸ hlt
  · rw [List.length_append, List.length_singleton]
    exact Nat.le_trans (Nat.succ_le_succ h.length_le) hlt

namespace Progress

variable {s : String} {taken : List (Nat × Event)} {c : Cursor} {b : Builder}

/-- The two stacks are in step at each moment. -/
theorem inStep (h : Progress s taken c b) : InStep (Cursor.start s).rest taken c b := by
  induction h with
  | start => exact inStep_start s
  | take _ next accept ih => exact ih.take next accept

/-- What comes of a text is what comes of reading on at any moment. -/
theorem run_eq (h : Progress s taken c b) : Element.ofXml s = b.run (Trace.onward c) := by
  induction h with
  | start => rfl
  | take _ next accept ih => rw [ih, Builder.run_onward next accept]

/-- A fault at a moment of reading is the fault of the text. -/
theorem ofXml_eq_error (h : Progress s taken c b) {fault : Fault} (fails : FailsAt c b fault) :
    Element.ofXml s = .error fault := by
  rw [h.run_eq, Trace.onward_eq]
  rcases fails with hnext | ⟨e, c', hnext, haccept⟩
  · rw [hnext, Builder.run]
  · rw [hnext]
    simp only [Builder.run, haccept]

-- Every event leaves less of the text, so the induction is on what is left.
/-- Reading comes to an end: to that of the text, or to a fault. -/
theorem exists_end (h : Progress s taken c b) : ∃ taken c b, Progress s taken c b ∧
    (c.rest = [] ∧ Element.ofXml s = b.finish ∨
      ∃ fault, FailsAt c b fault ∧ Element.ofXml s = .error fault) := by
  induction hn : c.rest.length using Nat.strongRecOn generalizing taken c b with
  | ind n ih =>
    cases hnext : c.next with
    | error fault =>
        have hfails : FailsAt c b fault := Or.inl hnext
        exact ⟨taken, c, b, h, Or.inr ⟨fault, hfails, h.ofXml_eq_error hfails⟩⟩
    | ok event =>
        cases event with
        | none =>
            refine ⟨taken, c, b, h, Or.inl ⟨Cursor.next_eq_none_iff.mp hnext, ?_⟩⟩
            rw [h.run_eq, Trace.onward_eq, hnext, Builder.run]
        | some event =>
            rcases event with ⟨e, c'⟩
            cases haccept : b.accept c.offset e with
            | error fault =>
                have hfails : FailsAt c b fault := Or.inr ⟨e, c', hnext, haccept⟩
                exact ⟨taken, c, b, h, Or.inr ⟨fault, hfails, h.ofXml_eq_error hfails⟩⟩
            | ok b' =>
                exact ih _ (hn ▸ Cursor.length_rest_next_lt hnext) (h.take hnext haccept) rfl

end Progress

/-! ### Where faults are found -/

/-- A fault with a place is found where its event begins. -/
theorem FailsAt.offset_eq {c : Cursor} {b : Builder} {fault : Fault} {P : Nat}
    (fails : FailsAt c b fault) (h : fault.offset? = some P) : c.offset = P ∧ c.rest ≠ [] := by
  rcases fails with hnext | ⟨e, c', hnext, haccept⟩
  · rcases Cursor.next_eq_error hnext with ⟨hrest, ⟨cause, rfl⟩ | ⟨cause, rfl⟩⟩
    · exact ⟨Option.some.inj h, hrest⟩
    · exact ⟨Option.some.inj h, hrest⟩
  · have hrest : c.rest ≠ [] := by
      intro hnil
      rw [Cursor.next_eq_none_iff.mpr hnil] at hnext
      simp only [Except.ok.injEq, reduceCtorEq] at hnext
    rcases Builder.accept_eq_error haccept with ⟨cause, rfl⟩ | rfl | rfl | ⟨rfl, _⟩
    · simp only [Fault.offset?, reduceCtorEq] at h
    · exact ⟨Option.some.inj h, hrest⟩
    · exact ⟨Option.some.inj h, hrest⟩
    · exact ⟨Option.some.inj h, hrest⟩

/-- While the stacks are in step, a closing tag that can be read finds an open element. -/
theorem InStep.ne_strayClose {text : List Char} {taken : List (Nat × Event)} {c : Cursor}
    {b : Builder} {fault : Fault} (h : InStep text taken c b) (fails : FailsAt c b fault)
    (P : Nat) : fault ≠ .strayClose P := by
  rintro rfl
  rcases fails with hnext | ⟨e, c', hnext, haccept⟩
  · rcases Cursor.next_eq_error hnext with ⟨_, ⟨cause, hfault⟩ | ⟨cause, hfault⟩⟩ <;>
      simp only [reduceCtorEq] at hfault
  · rcases Builder.accept_eq_error haccept with
      ⟨cause, hfault⟩ | hfault | hfault | ⟨_, hopened, name, rfl⟩
    · simp only [reduceCtorEq] at hfault
    · simp only [reduceCtorEq] at hfault
    · simp only [reduceCtorEq] at hfault
    · -- The cursor has read it, so it has a tag with that name, and the builder has it as well.
      have hhead := (Cursor.opened_next hnext).2 name rfl
      rw [← h.names, Builder.names, hopened] at hhead
      simp only [List.map_nil, List.head?_nil, reduceCtorEq] at hhead

theorem head?_toList_append {t : String} {c : Char} (h : t.toList.head? = some c) (u : String) :
    (t ++ u).toList.head? = some c := by
  rw [String.toList_append, List.head?_append, h]
  rfl

/-- No other fault has the wording of a closing tag that finds nothing open. -/
theorem Fault.exists_eq_strayClose {fault : Fault}
    (h : fault.message = "closing tag without opening tag") : ∃ P, fault = .strayClose P := by
  -- It is the only wording that begins with its letter.
  have hletter : fault.message.toList.head? = some 'c' := h ▸ by decide
  have other {c : Char} (hc : fault.message.toList.head? = some c) (hne : 'c' ≠ c) :
      ∃ P, fault = .strayClose P := absurd (Option.some.inj (hletter.symm.trans hc)) hne
  have hmore : "document has more than one root element".toList.head? = some 'd' := by
    decide +kernel
  have htext : "text content outside the root element".toList.head? = some 't' := by
    decide +kernel
  have hnone : "document has no root element".toList.head? = some 'd' := by decide +kernel
  cases fault with
  | strayClose P => exact ⟨P, rfl⟩
  | markup offset cause => exact other (head?_toList_append (c := 'm') (by decide) _) (by decide)
  | nesting offset cause => exact other (head?_toList_append (c := 'm') (by decide) _) (by decide)
  | escape cause => exact other (head?_toList_append (c := 'm') (by decide) _) (by decide)
  | secondRoot offset => exact other hmore (by decide)
  | textOutsideRoot offset => exact other htext (by decide)
  | unclosedElement name =>
      exact other (head?_toList_append (head?_toList_append (c := 'u') (by decide) _) _) (by decide)
  | noRoot => exact other hnone (by decide)

/-- What holds while a text is read, and where its faults are found.

    The text is what is left without a byte order mark. At each moment the builder has elements
    open with the names of the tags that the cursor has open, in that order, and these are the
    names that the events so far leave open. The events take up the text to the cursor, and
    each begins before it. Reading an event takes a byte at least, so there are no more of them
    than bytes, and reading ends at the end of the text or at a fault. No fault is that of
    a closing tag without an opening one. A fault with a place is found within the text: all
    that stands before the place was read and accepted, and the event that begins there gives the
    fault. -/
theorem reading_in_step (s : String) :
    let text := (Cursor.start s).rest
    (s.toList = '\uFEFF' :: text ∨ s.toList = text ∧ text.head? ≠ some '\uFEFF') ∧
      (∀ taken c b, Progress s taken c b →
        b.opened.map Element.name = c.opened ∧ c.opened = namesOpen (taken.map Prod.snd) ∧
          (∃ before, text = before ++ c.rest ∧ Text.byteLength before = c.offset) ∧
          (∀ x ∈ taken, x.1 < c.offset) ∧ taken.length ≤ c.offset ∧
          Element.ofXml s = b.run (Trace.onward c)) ∧
      (∀ c e c', Cursor.next c = .ok (some (e, c')) → c.offset < c'.offset) ∧
      (∃ taken c b, Progress s taken c b ∧
        (c.rest = [] ∧ Element.ofXml s = b.finish ∨
          ∃ fault, FailsAt c b fault ∧ Element.ofXml s = .error fault)) ∧
      (∀ fault, Element.ofXml s = .error fault →
        fault.message ≠ "closing tag without opening tag") ∧
      ∀ fault P, Element.ofXml s = .error fault → fault.offset? = some P →
        P < Text.byteLength text ∧ ∃ taken c b before, Progress s taken c b ∧
          FailsAt c b fault ∧ text = before ++ c.rest ∧ Text.byteLength before = P ∧
          ∀ x ∈ taken, x.1 < P := by
  intro text
  -- Any fault is that of the text's end, or of the event at which reading ends.
  have hfault : ∀ fault, Element.ofXml s = .error fault → fault.offset? = none ∧
      (∀ P, fault ≠ .strayClose P) ∨ ∃ taken c b, Progress s taken c b ∧ FailsAt c b fault := by
    intro fault h
    rcases Progress.start.exists_end with
      ⟨taken, c, b, hprogress, ⟨_, hend⟩ | ⟨fault', hfails, hend⟩⟩
    · rw [h] at hend
      have hnone := Builder.offset?_of_finish_eq_error hend.symm
      refine Or.inl ⟨hnone, fun P hP => ?_⟩
      rw [hP, Fault.offset?] at hnone
      exact Option.some_ne_none P hnone
    · rw [h, Except.error.injEq] at hend
      exact Or.inr ⟨taken, c, b, hprogress, hend ▸ hfails⟩
  refine ⟨Cursor.start_rest s, fun taken c b h => ?_, fun c e c' => Cursor.offset_lt_of_next,
    Progress.start.exists_end, fun fault h hmessage => ?_, fun fault P h hP => ?_⟩
  · have hstep := h.inStep
    exact ⟨hstep.names, hstep.opened, hstep.place, hstep.earlier, hstep.length_le, h.run_eq⟩
  · rcases Fault.exists_eq_strayClose hmessage with ⟨P, hstray⟩
    rcases hfault fault h with ⟨_, hne⟩ | ⟨taken, c, b, hprogress, hfails⟩
    · exact hne P hstray
    · exact hprogress.inStep.ne_strayClose hfails P hstray
  · rcases hfault fault h with ⟨hnone, _⟩ | ⟨taken, c, b, hprogress, hfails⟩
    · exact absurd (hnone.symm.trans hP) (Option.some_ne_none P).symm
    · rcases hfails.offset_eq hP with ⟨rfl, hrest⟩
      rcases hprogress.inStep.place with ⟨before, htext, hbefore⟩
      refine ⟨?_, taken, c, b, before, hprogress, hfails, htext, hbefore, hprogress.inStep.earlier⟩
      rw [show text = before ++ c.rest from htext, Text.byteLength_append, hbefore]
      exact Nat.lt_add_of_pos_right (Text.byteLength_pos hrest)

/-- A text with a byte order mark and a second element outside of the first. -/
def twoRoots : String := "\uFEFF<a>x</a> <b/>"

/-- The second element is found at byte 9. The mark does not count, and the blank text before
    the element was accepted. -/
theorem reading_in_step_twoRoots :
    Element.ofXml twoRoots = .error (.secondRoot 9) ∧
      ∃ taken c b before, Progress twoRoots taken c b ∧ FailsAt c b (.secondRoot 9) ∧
        "<a>x</a> <b/>".toList = before ++ c.rest ∧ Text.byteLength before = 9 := by
  have hopening : Progress twoRoots [(0, .opening "a")] ⟨"x</a> <b/>".toList, 3, ["a"]⟩
      ⟨[⟨"a", []⟩], none⟩ := .take .start rfl rfl
  have htext : Progress twoRoots [(0, .opening "a"), (3, .text "x".toList)]
      ⟨"</a> <b/>".toList, 4, ["a"]⟩ ⟨[⟨"a", [.text "x"]⟩], none⟩ := .take hopening rfl rfl
  have hclosing : Progress twoRoots
      [(0, .opening "a"), (3, .text "x".toList), (4, .closing "a")]
      ⟨" <b/>".toList, 8, []⟩ ⟨[], some ⟨"a", [.text "x"]⟩⟩ := .take htext rfl rfl
  have hblank : Progress twoRoots
      [(0, .opening "a"), (3, .text "x".toList), (4, .closing "a"), (8, .text " ".toList)]
      ⟨"<b/>".toList, 9, []⟩ ⟨[], some ⟨"a", [.text "x"]⟩⟩ := .take hclosing rfl rfl
  have hread : Element.ofXml twoRoots = .error (.secondRoot 9) :=
    hblank.ofXml_eq_error (Or.inr ⟨.selfClosing "b", ⟨[], 13, []⟩, rfl, rfl⟩)
  rcases reading_in_step twoRoots with ⟨_, _, _, _, _, hplace⟩
  rcases hplace (.secondRoot 9) 9 hread rfl with
    ⟨_, taken, c, b, before, hprogress, hfails, htext, hbefore, _⟩
  exact ⟨hread, taken, c, b, before, hprogress, hfails, htext, hbefore⟩

end Xml

end MailMerge
