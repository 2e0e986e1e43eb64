import PacketTransport.Proofs.Config.Entries

/-!
# Configurations that are written and read back

There are many ways to write the same entries: with blanks around a line and around the equals
sign, with either line end, with text behind a header, and with lines between that say nothing.
Reading gives the entries back, whichever way they were written.

* `OnlyOf`, `NotAtFront`, `NotAtBack` — where characters may stand;
* `trimFront_append`, `trimBack_append`, `trim_between` — trimming takes away what was put around;
* `KeyText`, `ValueText`, `ConfigEntry.Proper` — entries that can be written;
* `WrittenLine`, `WrittenLine.Proper`, `documentText` — lines as they are written, and their text;
* `ofText_text` — reading one line; `entriesIn_documentText` — reading a text;
* `Renders`, `renders_rendering` — a text that says some entries, and that there is one;
* `parse_restores` — reading it.
-/

namespace PacketTransport

/-! ### Characters -/

/-- Only these characters occur. -/
def OnlyOf (chars cs : List Char) : Prop := ∀ c ∈ cs, c ∈ chars

/-- None of these characters comes first. -/
def NotAtFront (chars cs : List Char) : Prop := ∀ c ∈ chars, cs.head? ≠ some c

/-- None of these characters comes last. -/
def NotAtBack (chars cs : List Char) : Prop := ∀ c ∈ chars, cs.getLast? ≠ some c

-- Only the characters of the list are tried, not all there are.
instance (chars cs : List Char) : Decidable (OnlyOf chars cs) := List.decidableBAll _ cs

instance (chars cs : List Char) : Decidable (NotAtFront chars cs) := List.decidableBAll _ chars

instance (chars cs : List Char) : Decidable (NotAtBack chars cs) := List.decidableBAll _ chars

section Trimming

variable {blanks cs front back rest : List Char} {c : Char}

theorem OnlyOf.mono {chars more : List Char} (h : OnlyOf chars cs) (hsub : chars ⊆ more) :
    OnlyOf more cs := fun c hc => hsub (h c hc)

theorem OnlyOf.append {chars : List Char} (h : OnlyOf chars cs) (hrest : OnlyOf chars rest) :
    OnlyOf chars (cs ++ rest) := fun c hc => (List.mem_append.1 hc).elim (h c) (hrest c)

theorem OnlyOf.not_mem {chars : List Char} (h : OnlyOf chars cs) (hc : c ∉ chars) : c ∉ cs :=
  fun hmem => hc (h c hmem)

theorem notAtFront_cons (h : c ∉ blanks) (rest : List Char) : NotAtFront blanks (c :: rest) :=
  fun _ hb heq => h (Option.some.inj heq ▸ hb)

theorem notAtBack_concat (h : c ∉ blanks) (cs : List Char) : NotAtBack blanks (cs ++ [c]) := by
  intro b hb heq
  rw [List.getLast?_concat] at heq
  exact h (Option.some.inj heq ▸ hb)

theorem NotAtFront.append (h : NotAtFront blanks cs) (hne : cs ≠ []) (rest : List Char) :
    NotAtFront blanks (cs ++ rest) := by
  cases cs with
  | nil => exact absurd rfl hne
  | cons c cs => exact h

theorem NotAtBack.append (h : NotAtBack blanks rest) (hne : rest ≠ []) (cs : List Char) :
    NotAtBack blanks (cs ++ rest) := by
  intro b hb
  rw [List.getLast?_append, List.getLast?_eq_some_getLast hne, Option.some_or,
    ← List.getLast?_eq_some_getLast hne]
  exact h b hb

theorem trimFront_append (hfront : OnlyOf blanks front) (h : NotAtFront blanks cs) :
    trimFront blanks (front ++ cs) = cs := by
  rw [trimFront, List.dropWhile_append_of_pos fun c hc => List.elem_iff.2 (hfront c hc)]
  cases cs with
  | nil => rfl
  | cons c rest =>
    exact List.dropWhile_cons_of_neg fun hc => h c (List.elem_iff.1 hc) rfl

theorem trimBack_append (hback : OnlyOf blanks back) (h : NotAtBack blanks cs) :
    trimBack blanks (cs ++ back) = cs := by
  have hfront : NotAtFront blanks cs.reverse := by
    intro b hb
    rw [List.head?_reverse]
    exact h b hb
  rw [trimBack, List.reverse_append,
    trimFront_append (fun c hc => hback c (List.mem_reverse.1 hc)) hfront, List.reverse_reverse]

/-- A character that is not a blank keeps what stands behind it. -/
theorem trimFront_keep (hc : c ∉ blanks) (cs rest : List Char) :
    trimFront blanks (cs ++ c :: rest) = trimFront blanks cs ++ c :: rest := by
  have hstop : blanks.elem c = false := by rwa [List.elem_eq_mem, decide_eq_false_iff_not]
  rw [trimFront, trimFront, List.dropWhile_append,
    List.dropWhile_cons_of_neg (by rw [hstop]; exact Bool.false_ne_true)]
  split
  · rename_i hempty
    rw [List.isEmpty_iff.1 hempty]
    rfl
  · rfl

/-- It keeps what stands before it as well. -/
theorem trimBack_keep (hc : c ∉ blanks) (cs rest : List Char) :
    trimBack blanks (cs ++ c :: rest) = cs ++ c :: trimBack blanks rest := by
  have hreverse : (cs ++ c :: rest).reverse = rest.reverse ++ c :: cs.reverse := by simp
  rw [trimBack, hreverse, trimFront_keep hc, trimBack]
  simp

/-- Trimming takes away the blanks on both sides. -/
theorem trim_between (hfront : OnlyOf blanks front) (hback : OnlyOf blanks back) (hne : cs ≠ [])
    (hfirst : NotAtFront blanks cs) (hlast : NotAtBack blanks cs) :
    trim blanks (front ++ (cs ++ back)) = cs := by
  rw [trim, trimFront_append hfront (hfirst.append hne back), trimBack_append hback hlast]

/-- Trimming a line that begins with a character that counts. -/
theorem trim_cons (hfront : OnlyOf blanks front) (hc : c ∉ blanks) (rest : List Char) :
    trim blanks (front ++ c :: rest) = c :: trimBack blanks rest := by
  rw [trim, trimFront_append hfront (notAtFront_cons hc rest)]
  exact trimBack_keep hc [] rest

theorem trim_blanks (h : OnlyOf blanks cs) : trim blanks cs = [] := by
  have hnone : trimFront blanks (cs ++ []) = [] := trimFront_append h nofun
  rw [List.append_nil] at hnone
  rw [trim, hnone]
  rfl

theorem mem_of_mem_trimBack (h : c ∈ trimBack blanks cs) : c ∈ cs := by
  rw [trimBack, List.mem_reverse] at h
  exact List.mem_reverse.1 ((List.dropWhile_sublist _).subset h)

end Trimming

/-! ### Lines -/

theorem linesOf_of_no_break {cs : List Char} (h : '\n' ∉ cs) : linesOf cs = [cs] := by
  induction cs with
  | nil => rfl
  | cons c cs ih =>
    rw [List.mem_cons, not_or] at h
    rw [linesOf_cons, ih h.2, consLine, if_neg fun e => h.1 e.symm]

theorem linesOf_append_break {cs : List Char} (h : '\n' ∉ cs) (rest : List Char) :
    linesOf (cs ++ '\n' :: rest) = cs :: linesOf rest := by
  induction cs with
  | nil => rfl
  | cons c cs ih =>
    rw [List.mem_cons, not_or] at h
    rw [List.cons_append, linesOf_cons, ih h.2, consLine, if_neg fun e => h.1 e.symm]

/-- The characters that may stand around what a line says.  The carriage return is the one of a
line end of two characters. -/
def lineEdge : List Char := [' ', '\t', '\r']

theorem OnlyOf.lineBlanks {cs : List Char} (h : OnlyOf lineEdge cs) : OnlyOf lineBlanks cs :=
  h.mono (by decide)

theorem OnlyOf.no_break {cs : List Char} (h : OnlyOf lineEdge cs) : '\n' ∉ cs :=
  h.not_mem (by decide)

/-- A text that can be a key. -/
structure KeyText (cs : List Char) : Prop where
  ne_nil : cs ≠ []
  no_equals : '=' ∉ cs
  no_break : '\n' ∉ cs
  no_mark : NotAtFront ['#', ';', '['] cs
  front : NotAtFront lineEdge cs
  back : NotAtBack lineEdge cs

/-- A text that can be a value. -/
structure ValueText (cs : List Char) : Prop where
  no_break : '\n' ∉ cs
  front : NotAtFront valueBlanks cs
  back : NotAtBack lineEdge cs

/-- A text that can be a section. -/
structure SectionText (cs : List Char) : Prop where
  no_bracket : ']' ∉ cs
  no_break : '\n' ∉ cs

instance (cs : List Char) : Decidable (KeyText cs) :=
  decidable_of_iff (cs ≠ [] ∧ '=' ∉ cs ∧ '\n' ∉ cs ∧ NotAtFront ['#', ';', '['] cs ∧
      NotAtFront lineEdge cs ∧ NotAtBack lineEdge cs)
    ⟨fun ⟨h₁, h₂, h₃, h₄, h₅, h₆⟩ => ⟨h₁, h₂, h₃, h₄, h₅, h₆⟩,
      fun ⟨h₁, h₂, h₃, h₄, h₅, h₆⟩ => ⟨h₁, h₂, h₃, h₄, h₅, h₆⟩⟩

instance (cs : List Char) : Decidable (ValueText cs) :=
  decidable_of_iff ('\n' ∉ cs ∧ NotAtFront valueBlanks cs ∧ NotAtBack lineEdge cs)
    ⟨fun ⟨h₁, h₂, h₃⟩ => ⟨h₁, h₂, h₃⟩, fun ⟨h₁, h₂, h₃⟩ => ⟨h₁, h₂, h₃⟩⟩

instance (cs : List Char) : Decidable (SectionText cs) :=
  decidable_of_iff (']' ∉ cs ∧ '\n' ∉ cs) ⟨fun ⟨h₁, h₂⟩ => ⟨h₁, h₂⟩, fun ⟨h₁, h₂⟩ => ⟨h₁, h₂⟩⟩

/-- An entry that can be written. -/
structure ConfigEntry.Proper (e : ConfigEntry) : Prop where
  sectionText : SectionText e.sectionName.toList
  keyText : KeyText e.key.toList
  valueText : ValueText e.value.toList

instance (e : ConfigEntry) : Decidable e.Proper :=
  decidable_of_iff (SectionText e.sectionName.toList ∧ KeyText e.key.toList ∧
      ValueText e.value.toList)
    ⟨fun ⟨h₁, h₂, h₃⟩ => ⟨h₁, h₂, h₃⟩, fun ⟨h₁, h₂, h₃⟩ => ⟨h₁, h₂, h₃⟩⟩

/-- A line as it is written, without the line feed. -/
inductive WrittenLine where
  | blank (blanks : List Char)
  | comment (front : List Char) (mark : Char) (rest : List Char)
  /-- A header whose bracket is not closed. -/
  | unclosed (front rest : List Char)
  /-- A line without an equals sign. -/
  | plain (front body back : List Char)
  | header (front name rest : List Char)
  | entry (front key before after value back : List Char)
deriving DecidableEq, Repr

namespace WrittenLine

/-- The characters of a line. -/
def text : WrittenLine → List Char
  | .blank blanks => blanks
  | .comment front mark rest => front ++ mark :: rest
  | .unclosed front rest => front ++ '[' :: rest
  | .plain front body back => front ++ (body ++ back)
  | .header front name rest => front ++ '[' :: (name ++ ']' :: rest)
  | .entry front key before after value back =>
      front ++ (key ++ before ++ '=' :: (after ++ value) ++ back)

/-- What a line is to say. -/
def line : WrittenLine → Line
  | .blank _ | .comment _ _ _ | .unclosed _ _ => .nothing
  | .plain _ body _ => .unreadable body
  | .header _ name _ => .header name
  | .entry _ key _ _ value _ => .entry key value

/-- Whether a line is written as it has to be. -/
def Proper : WrittenLine → Prop
  | .blank blanks => OnlyOf lineEdge blanks
  | .comment front mark rest => OnlyOf lineEdge front ∧ mark ∈ ['#', ';'] ∧ '\n' ∉ rest
  | .unclosed front rest => OnlyOf lineEdge front ∧ ']' ∉ rest ∧ '\n' ∉ rest
  | .plain front body back => OnlyOf lineEdge front ∧ KeyText body ∧ OnlyOf lineEdge back
  | .header front name rest => OnlyOf lineEdge front ∧ SectionText name ∧ '\n' ∉ rest
  | .entry front key before after value back =>
      OnlyOf lineEdge front ∧ KeyText key ∧ OnlyOf valueBlanks before ∧ OnlyOf valueBlanks after ∧
        ValueText value ∧ OnlyOf lineEdge back

instance : DecidablePred Proper
  | .blank blanks => inferInstanceAs (Decidable (OnlyOf lineEdge blanks))
  | .comment front mark rest =>
      inferInstanceAs (Decidable (OnlyOf lineEdge front ∧ mark ∈ ['#', ';'] ∧ '\n' ∉ rest))
  | .unclosed front rest =>
      inferInstanceAs (Decidable (OnlyOf lineEdge front ∧ ']' ∉ rest ∧ '\n' ∉ rest))
  | .plain front body back =>
      inferInstanceAs (Decidable (OnlyOf lineEdge front ∧ KeyText body ∧ OnlyOf lineEdge back))
  | .header front name rest =>
      inferInstanceAs (Decidable (OnlyOf lineEdge front ∧ SectionText name ∧ '\n' ∉ rest))
  | .entry front key before after value back =>
      inferInstanceAs (Decidable (OnlyOf lineEdge front ∧ KeyText key ∧ OnlyOf valueBlanks before ∧
        OnlyOf valueBlanks after ∧ ValueText value ∧ OnlyOf lineEdge back))

end WrittenLine

/-! ### Reading a line -/

theorem NotAtFront.lineBlanks {cs : List Char} (h : NotAtFront lineEdge cs) (hbreak : '\n' ∉ cs) :
    NotAtFront lineBlanks cs := by
  intro c hc heq
  rcases List.mem_append.1 (show c ∈ lineEdge ++ ['\n'] from hc) with hedge | hfeed
  · exact h c hedge heq
  · exact hbreak (List.mem_singleton.1 hfeed ▸ List.mem_of_mem_head? heq)

theorem NotAtBack.lineBlanks {cs : List Char} (h : NotAtBack lineEdge cs) (hbreak : '\n' ∉ cs) :
    NotAtBack lineBlanks cs := by
  intro c hc heq
  rcases List.mem_append.1 (show c ∈ lineEdge ++ ['\n'] from hc) with hedge | hfeed
  · exact h c hedge heq
  · exact hbreak (List.mem_singleton.1 hfeed ▸ List.mem_of_getLast? heq)

namespace Line

theorem ofText_of_trim_nil {cs : List Char} (h : trim lineBlanks cs = []) :
    ofText cs = .nothing := by
  rw [ofText, h]

theorem ofText_of_mark {cs rest : List Char} {mark : Char} (h : trim lineBlanks cs = mark :: rest)
    (hmark : mark ∈ ['#', ';']) : ofText cs = .nothing := by
  rw [ofText, h]
  rcases List.mem_cons.1 hmark with rfl | hmark
  · rfl
  · rw [List.mem_singleton.1 hmark]
    rfl

theorem ofText_of_bracket {cs rest : List Char} (h : trim lineBlanks cs = '[' :: rest) :
    ofText cs = ofHeader rest := by
  rw [ofText, h]
  rfl

/-- A line that does not begin like a comment or a header is read as an entry. -/
theorem ofText_of_unmarked {cs body : List Char} (h : trim lineBlanks cs = body) (hne : body ≠ [])
    (hmark : NotAtFront ['#', ';', '['] body) : ofText cs = ofEntry body := by
  rw [ofText, h]
  split
  · exact absurd rfl hne
  · exact absurd rfl (hmark '#' (by decide))
  · exact absurd rfl (hmark ';' (by decide))
  · exact absurd rfl (hmark '[' (by decide))
  · rfl

/-- A line that begins like a key is neither a comment nor a header. -/
theorem ofText_of_key {cs key rest : List Char} (h : trim lineBlanks cs = key ++ rest)
    (hkey : KeyText key) : ofText cs = ofEntry (key ++ rest) :=
  ofText_of_unmarked h (fun hnil => hkey.ne_nil (List.append_eq_nil_iff.1 hnil).1)
    (hkey.no_mark.append hkey.ne_nil rest)

theorem ofHeader_closed {name rest : List Char} (h : ']' ∉ name) :
    ofHeader (name ++ ']' :: rest) = .header name := by
  have hclosed : (name ++ ']' :: rest).elem ']' = true :=
    List.elem_iff.2 (List.mem_append_right _ List.mem_cons_self)
  have hname : ∀ c ∈ name, (c != ']') = true := fun c hc => bne_iff_ne.2 fun e => h (e ▸ hc)
  rw [ofHeader, if_pos hclosed, List.takeWhile_append_of_pos hname,
    List.takeWhile_cons_of_neg (by decide), List.append_nil]

theorem ofHeader_unclosed {rest : List Char} (h : ']' ∉ rest) : ofHeader rest = .nothing :=
  if_neg fun hmem => h (List.elem_iff.1 hmem)

/-- The first equals sign divides an entry. -/
theorem ofEntry_divided {left right : List Char} (h : '=' ∉ left) :
    ofEntry (left ++ '=' :: right) =
      .entry (trimBack valueBlanks left) (trimFront valueBlanks right) := by
  have hmem : (left ++ '=' :: right).elem '=' = true :=
    List.elem_iff.2 (List.mem_append_right _ List.mem_cons_self)
  have hleft : ∀ c ∈ left, (c != '=') = true := fun c hc => bne_iff_ne.2 fun e => h (e ▸ hc)
  rw [ofEntry, if_pos hmem, List.takeWhile_append_of_pos hleft,
    List.dropWhile_append_of_pos hleft, List.takeWhile_cons_of_neg (by decide),
    List.dropWhile_cons_of_neg (by decide), List.append_nil]
  rfl

theorem ofEntry_plain {cs : List Char} (h : '=' ∉ cs) : ofEntry cs = .unreadable cs :=
  if_neg fun hmem => h (List.elem_iff.1 hmem)

end Line

/-- What is left of an entry when its line is trimmed.  Nothing is left behind the equals sign if
the value is empty. -/
theorem trim_entry {front key after value back : List Char} (before : List Char)
    (hfront : OnlyOf lineEdge front) (hkey : KeyText key) (hafter : OnlyOf valueBlanks after)
    (hvalue : ValueText value) (hback : OnlyOf lineEdge back) :
    ∃ right, trim lineBlanks (front ++ (key ++ before ++ '=' :: (after ++ value) ++ back)) =
        key ++ (before ++ '=' :: right) ∧ trimFront valueBlanks right = value := by
  have hfirst := hkey.front.lineBlanks hkey.no_break
  cases value with
  | nil =>
    have hblanks : OnlyOf lineBlanks (after ++ back) :=
      (hafter.mono (by decide)).append hback.lineBlanks
    refine ⟨[], ?_, rfl⟩
    have hfirst' : NotAtFront lineBlanks (key ++ before ++ ['=']) :=
      (hfirst.append hkey.ne_nil before).append (by simp [hkey.ne_nil]) ['=']
    have htrim := trim_between hfront.lineBlanks hblanks (by simp) hfirst'
      (notAtBack_concat (by decide) _)
    rw [List.append_assoc key before ['=']] at htrim
    rw [← htrim]
    simp
  | cons c value =>
    refine ⟨after ++ c :: value, ?_, trimFront_append hafter hvalue.front⟩
    have hlast : NotAtBack lineBlanks (c :: value) := hvalue.back.lineBlanks hvalue.no_break
    have htrim := trim_between hfront.lineBlanks hback.lineBlanks
      (show key ++ (before ++ '=' :: (after ++ c :: value)) ≠ [] by simp [hkey.ne_nil])
      (hfirst.append hkey.ne_nil _) ?_
    · rw [← htrim]
      simp
    · have hsplit : key ++ (before ++ '=' :: (after ++ c :: value)) =
          (key ++ before ++ '=' :: after) ++ c :: value := by simp
      rw [hsplit]
      exact hlast.append (List.cons_ne_nil c value) _

/-- **Reading one line** gives what it was to say. -/
theorem ofText_text {l : WrittenLine} (h : l.Proper) : Line.ofText l.text = l.line := by
  cases l with
  | blank blanks => exact Line.ofText_of_trim_nil (trim_blanks (OnlyOf.lineBlanks h))
  | comment front mark rest =>
    obtain ⟨hfront, hmark, -⟩ := h
    have hstop : mark ∉ lineBlanks := by
      rcases List.mem_cons.1 hmark with rfl | hmark
      · decide
      · rw [List.mem_singleton.1 hmark]
        decide
    exact Line.ofText_of_mark (trim_cons hfront.lineBlanks hstop rest) hmark
  | unclosed front rest =>
    obtain ⟨hfront, hbracket, -⟩ := h
    rw [WrittenLine.text, Line.ofText_of_bracket (trim_cons hfront.lineBlanks (by decide) rest)]
    exact Line.ofHeader_unclosed fun hmem => hbracket (mem_of_mem_trimBack hmem)
  | plain front body back =>
    obtain ⟨hfront, hbody, hback⟩ := h
    have htrim := trim_between hfront.lineBlanks hback.lineBlanks hbody.ne_nil
      (hbody.front.lineBlanks hbody.no_break) (hbody.back.lineBlanks hbody.no_break)
    rw [WrittenLine.text, Line.ofText_of_key (htrim.trans (List.append_nil body).symm) hbody,
      List.append_nil]
    exact Line.ofEntry_plain hbody.no_equals
  | header front name rest =>
    obtain ⟨hfront, hname, -⟩ := h
    have htrim := trim_cons hfront.lineBlanks (show '[' ∉ lineBlanks by decide)
      (name ++ ']' :: rest)
    rw [trimBack_keep (by decide)] at htrim
    rw [WrittenLine.text, Line.ofText_of_bracket htrim]
    exact Line.ofHeader_closed hname.no_bracket
  | entry front key before after value back =>
    obtain ⟨hfront, hkey, hbefore, hafter, hvalue, hback⟩ := h
    obtain ⟨right, htrim, hright⟩ := trim_entry before hfront hkey hafter hvalue hback
    have hequals : '=' ∉ key ++ before := by
      rw [List.mem_append, not_or]
      exact ⟨hkey.no_equals, hbefore.not_mem (by decide)⟩
    have hkeyBack : NotAtBack valueBlanks key := fun c hc =>
      hkey.back c (List.mem_append_left ['\r'] hc)
    rw [WrittenLine.text, Line.ofText_of_key htrim hkey, ← List.append_assoc,
      Line.ofEntry_divided hequals, hright, trimBack_append hbefore hkeyBack]
    rfl

/-! ### Reading a text -/

/-- The text of some lines, with line feeds between them.  A text that ends with a line feed is one
whose last line is blank. -/
def documentText : List WrittenLine → List Char
  | [] => []
  | [l] => l.text
  | l :: ls => l.text ++ '\n' :: documentText ls

/-- A line has no line feed. -/
theorem WrittenLine.Proper.no_break {l : WrittenLine} (h : l.Proper) : '\n' ∉ l.text := by
  cases l with
  | blank blanks => exact OnlyOf.no_break h
  | comment front mark rest =>
    obtain ⟨hfront, hmark, hrest⟩ := h
    have hne : '\n' ≠ mark := by
      rintro rfl
      exact absurd hmark (by decide)
    simp [text, hfront.no_break, hne, hrest]
  | unclosed front rest =>
    obtain ⟨hfront, -, hrest⟩ := h
    simp [text, hfront.no_break, hrest]
  | plain front body back =>
    obtain ⟨hfront, hbody, hback⟩ := h
    simp [text, hfront.no_break, hbody.no_break, hback.no_break]
  | header front name rest =>
    obtain ⟨hfront, hname, hrest⟩ := h
    simp [text, hfront.no_break, hname.no_break, hrest]
  | entry front key before after value back =>
    obtain ⟨hfront, hkey, hbefore, hafter, hvalue, hback⟩ := h
    have hblank : '\n' ∉ valueBlanks := by decide
    simp [text, hfront.no_break, hkey.no_break, hbefore.not_mem hblank, hafter.not_mem hblank,
      hvalue.no_break, hback.no_break]

theorem linesOf_documentText {doc : List WrittenLine} (h : ∀ l ∈ doc, l.Proper) (hne : doc ≠ []) :
    linesOf (documentText doc) = doc.map WrittenLine.text := by
  induction doc with
  | nil => exact absurd rfl hne
  | cons l ls ih =>
    have hl := (h l List.mem_cons_self).no_break
    cases ls with
    | nil => exact linesOf_of_no_break hl
    | cons l' ls =>
      rw [documentText, linesOf_append_break hl,
        ih (fun k hk => h k (List.mem_cons_of_mem _ hk)) (List.cons_ne_nil _ _)]
      · rfl
      · exact List.cons_ne_nil _ _

/-- **Reading a text** gives the entries that its lines say. -/
theorem entriesIn_documentText {doc : List WrittenLine} (h : ∀ l ∈ doc, l.Proper) :
    Config.entriesIn (.ofList (documentText doc)) =
      Config.entriesFrom "" (doc.map WrittenLine.line) := by
  cases doc with
  | nil => rfl
  | cons l ls =>
    rw [Config.entriesIn, String.toList_ofList, linesOf_documentText h (List.cons_ne_nil l ls),
      List.map_map]
    exact congrArg _ (List.map_congr_left fun k hk => ofText_text (h k hk))

/-! ### Entries that are written -/

/-- Lines that are written properly and say these entries. -/
structure Renders (doc : List WrittenLine) (es : List ConfigEntry) : Prop where
  proper : ∀ l ∈ doc, l.Proper
  entries_eq : Config.entriesFrom "" (doc.map WrittenLine.line) = es

/-- One way to write entries: each below a header of its own. -/
def rendering (es : List ConfigEntry) : List WrittenLine :=
  es.flatMap fun e =>
    [.header [] e.sectionName.toList [], .entry [] e.key.toList [' '] [' '] e.value.toList []]

theorem entriesFrom_rendering (es : List ConfigEntry) (sectionName : String) :
    Config.entriesFrom sectionName ((rendering es).map WrittenLine.line) = es := by
  induction es generalizing sectionName with
  | nil => rfl
  | cons e es ih =>
    show ⟨.ofList e.sectionName.toList, .ofList e.key.toList, .ofList e.value.toList⟩ ::
      Config.entriesFrom (.ofList e.sectionName.toList) ((rendering es).map WrittenLine.line) = _
    rw [ih, String.ofList_toList, String.ofList_toList, String.ofList_toList]

/-- Entries that can be written are written this way. -/
theorem renders_rendering {es : List ConfigEntry} (h : ∀ e ∈ es, e.Proper) :
    Renders (rendering es) es := by
  refine ⟨fun l hl => ?_, entriesFrom_rendering es ""⟩
  obtain ⟨e, he, hmem⟩ := List.mem_flatMap.1 hl
  obtain ⟨hsection, hkey, hvalue⟩ := h e he
  rcases List.mem_cons.1 hmem with rfl | hmem
  · exact ⟨nofun, hsection, nofun⟩
  · rw [List.mem_singleton.1 hmem]
    exact ⟨nofun, hkey, by decide, by decide, hvalue, nofun⟩

open ConfigEntry

/-- **Reading gives back what was written.**  Entries that can be written have a text.  Whatever
text says them, with any blanks, line ends and lines between, reading it into an empty configuration
stores for each name its last value, and nothing else.  And reading one text after another stores
what the second one stores alone, and what the first one does for the other names. -/
theorem parse_restores {es : List ConfigEntry} (h : ∀ e ∈ es, e.Proper) :
    (∃ doc, Renders doc es) ∧
      (∀ doc, Renders doc es → (({} : Config).parse (.ofList (documentText doc))).1.Stores
        fun name => lastValue? (·.name = name) es) ∧
      ∀ first second : String, (((({} : Config).parse first).1.parse second).1).Stores fun name =>
        ((({} : Config).parse second).1.lookup name).or
          ((({} : Config).parse first).1.lookup name) := by
  refine ⟨⟨_, renders_rendering h⟩, fun doc hdoc => ?_, fun first second => ?_⟩
  · refine (Config.distinct_parse Config.distinct_new _).stores.congr fun name => ?_
    rw [Config.lookup_parse_new, entriesIn_documentText hdoc.proper, hdoc.entries_eq]
  · have hfirst := Config.distinct_parse Config.distinct_new first
    exact (Config.distinct_parse hfirst second).stores.congr fun name =>
      Config.lookup_parse _ second name

/-- A header with text behind it, a value with an equals sign, a hash and a bracket in it, a line
end of two characters, a comment, a header that is not closed, a line without an equals sign, and
a second value for the key. -/
theorem parse_restores_overridden :
    (∀ e ∈ [(⟨"net", "host", "a=b #]"⟩ : ConfigEntry), ⟨"net", "host", ""⟩], e.Proper) ∧
      (({} : Config).parse
        "[net] remote\r\n\thost = a=b #]\r\n; note\n[open\nhost\n host=").1.Stores
        fun name => if "net.host" = name then some "" else none := by
  have hproper : ∀ e ∈ [(⟨"net", "host", "a=b #]"⟩ : ConfigEntry), ⟨"net", "host", ""⟩],
      e.Proper := by decide
  have hread := (parse_restores hproper).2.1
    [.header [] "net".toList " remote\r".toList,
      .entry ['\t'] "host".toList [' '] [' '] "a=b #]".toList ['\r'],
      .comment [] ';' " note".toList, .unclosed [] "open".toList, .plain [] "host".toList [],
      .entry [' '] "host".toList [] [] [] []]
    ⟨by decide, by decide⟩
  refine ⟨hproper, hread.congr fun name => ?_⟩
  show ConfigEntry.lastValue? _ _ = _
  by_cases h : "net.host" = name
  · rw [if_pos h, ← h]
    decide
  · have hname : ∀ e ∈ [(⟨"net", "host", "a=b #]"⟩ : ConfigEntry), ⟨"net", "host", ""⟩],
        e.name = "net.host" := by decide
    rw [if_neg h, ← Option.not_isSome_iff_eq_none, ConfigEntry.isSome_lastValue?]
    rintro ⟨e, he, heq⟩
    exact h ((hname e he).symm.trans (of_decide_eq_true heq))

end PacketTransport
