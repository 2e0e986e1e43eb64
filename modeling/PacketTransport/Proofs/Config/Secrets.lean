import PacketTransport.Proofs.Config.Naming
import PacketTransport.Proofs.Config.Written

/-!
# Secrets are not shown

The value of a name that speaks of a password or a secret is not shown.  What such a value is does
not show in anything else either: whatever stands behind the equals sign of its line, the line says
the same key, in the same section, and all other lines say what they said.

* `linesRead` — the lines of a text as they are read;
* `Line.ofText_keyed` — the key of a line is told by what stands before its first equals sign;
* `Config.shown`, `Config.LooksLike` — what is seen of a configuration, and that no more is seen of
  another one;
* `SameButSecrets` — lines that differ in secrets only;
* `Parsing.LooksLike.add`, `Parsing.LooksLike.add_secret` — one line leaves what looks alike so;
* `looksLike_lines`, `looksLike_parse` — so do all lines of two texts;
* `dump_hides_secrets` — what is shown after reading texts that differ in secrets only.
-/

namespace PacketTransport

/-! ### Lines -/

/-- The lines of a text, as they are read: a line feed at its end begins no other line. -/
def linesRead (text : String) : List (List Char) :=
  let ls := linesOf text.toList
  if ls.getLast? = some [] then ls.dropLast else ls

namespace Line

theorem ofHeader_ne_entry (cs key value : List Char) : ofHeader cs ≠ .entry key value := by
  intro h
  rw [ofHeader] at h
  split at h <;> cases h

/-- A line with a key begins neither like a comment nor like a header. -/
theorem unmarked_of_entry {cs key value : List Char} (h : ofText cs = .entry key value) :
    NotAtFront ['#', ';', '['] (trim lineBlanks cs) := by
  intro mark hmark hhead
  obtain ⟨rest, htrim⟩ := List.head?_eq_some_iff.1 hhead
  rcases List.mem_append.1 (show mark ∈ ['#', ';'] ++ ['['] from hmark) with hcomment | hheader
  · rw [ofText_of_mark htrim hcomment] at h
    cases h
  · rw [List.mem_singleton.1 hheader] at htrim
    exact ofHeader_ne_entry _ _ _ ((ofText_of_bracket htrim).symm.trans h)

/-- **The key of a line** is told by what stands before its first equals sign. -/
theorem ofText_keyed {left right key value : List Char} (hleft : '=' ∉ left)
    (h : ofText (left ++ '=' :: right) = .entry key value) (other : List Char) :
    ∃ value', ofText (left ++ '=' :: other) = .entry key value' := by
  have htrim : ∀ rest, trim lineBlanks (left ++ '=' :: rest) =
      trimFront lineBlanks left ++ '=' :: trimBack lineBlanks rest := fun rest => by
    rw [trim, trimFront_keep (by decide), trimBack_keep (by decide)]
  have hfront : '=' ∉ trimFront lineBlanks left := fun hmem =>
    hleft ((List.dropWhile_sublist _).subset hmem)
  have hunmarked := unmarked_of_entry h
  rw [htrim] at hunmarked
  have hread : ∀ rest, ofText (left ++ '=' :: rest) =
      .entry (trimBack valueBlanks (trimFront lineBlanks left))
        (trimFront valueBlanks (trimBack lineBlanks rest)) := fun rest => by
    have hne : trimFront lineBlanks left ++ '=' :: trimBack lineBlanks rest ≠ [] :=
      List.append_ne_nil_of_right_ne_nil _ (List.cons_ne_nil _ _)
    rw [ofText_of_unmarked (htrim rest) hne, ofEntry_divided hfront]
    -- the first character is one of those in front, or the equals sign
    intro mark hmark
    have hfirst := hunmarked mark hmark
    rwa [List.head?_append] at hfirst ⊢
  rw [hread right] at h
  cases h
  exact ⟨_, hread other⟩

end Line

/-! ### What is seen -/

namespace Config

/-- What is seen of the value of a name. -/
def shownValue (name value : String) : String := if isSecret name then "********" else value

/-- What is seen of the names and their values. -/
def shown (c : Config) : List (String × String) := c.entries.map fun e => (e.1, shownValue e.1 e.2)

/-- No more is seen of one configuration than of another one. -/
structure LooksLike (c c' : Config) : Prop where
  path_eq : c.path = c'.path
  shown_eq : c.shown = c'.shown

theorem LooksLike.refl (c : Config) : c.LooksLike c := ⟨rfl, rfl⟩

theorem shown_insert (c : Config) (name value : String) :
    (c.insert name value).shown =
      (name, shownValue name value) :: c.shown.filter (·.1 != name) := by
  rw [shown, shown, List.filter_map]
  rfl

/-- **One value** does not show if its name is secret. -/
theorem LooksLike.insert {c c' : Config} (h : c.LooksLike c') {name value value' : String}
    (hvalue : value = value' ∨ isSecret name = true) :
    (c.insert name value).LooksLike (c'.insert name value') := by
  have hshown : shownValue name value = shownValue name value' := by
    rcases hvalue with rfl | hsecret
    · rfl
    · rw [shownValue, shownValue, if_pos hsecret, if_pos hsecret]
  exact ⟨h.path_eq, by rw [shown_insert, shown_insert, hshown, h.shown_eq]⟩

theorem map_dumpLine (c : Config) :
    c.entries.map dumpLine = c.shown.map fun e => "  " ++ e.1 ++ " = " ++ e.2 := by
  rw [shown, List.map_map]
  rfl

/-- What looks alike has the same names, in the order in which they are kept, the same line for
each, and is shown in the same way. -/
theorem LooksLike.shown_same {c c' : Config} (h : c.LooksLike c') :
    c.dump = c'.dump ∧ c.entries.map dumpLine = c'.entries.map dumpLine ∧
      c.entries.map Prod.fst = c'.entries.map Prod.fst := by
  have hlines : c.entries.map dumpLine = c'.entries.map dumpLine := by
    rw [map_dumpLine, map_dumpLine, h.shown_eq]
  have hnames : ∀ c : Config, c.entries.map Prod.fst = c.shown.map Prod.fst := fun c => by
    rw [shown, List.map_map]
    rfl
  exact ⟨by rw [dump, dump, hlines, h.path_eq], hlines, by rw [hnames, hnames, h.shown_eq]⟩

/-! ### Reading -/

/-- No more is seen of what was read of one text than of another one. -/
structure Parsing.LooksLike (p p' : Parsing) : Prop where
  config : p.config.LooksLike p'.config
  section_eq : p.sectionName = p'.sectionName
  notes_eq : p.notes = p'.notes

/-- A line that is the same leaves what looks alike so. -/
theorem Parsing.LooksLike.add {p p' : Parsing} (h : p.LooksLike p') (l : Line) :
    (p.add l).LooksLike (p'.add l) := by
  cases l with
  | nothing => exact h
  | header name => exact ⟨h.config, rfl, h.notes_eq⟩
  | entry key value =>
    refine ⟨?_, h.section_eq, h.notes_eq⟩
    show (p.config.insert _ _).LooksLike (p'.config.insert _ _)
    rw [h.section_eq]
    exact h.config.insert (.inl rfl)
  | unreadable text => exact ⟨h.config, h.section_eq, congrArg (_ :: ·) h.notes_eq⟩

/-- So does a line that says another value of a secret name. -/
theorem Parsing.LooksLike.add_secret {p p' : Parsing} (h : p.LooksLike p') {key : List Char}
    (hsecret : isSecret (entryName p.sectionName (.ofList key)) = true) (value value' : List Char) :
    (p.add (.entry key value)).LooksLike (p'.add (.entry key value')) := by
  refine ⟨?_, h.section_eq, h.notes_eq⟩
  show (p.config.insert _ _).LooksLike (p'.config.insert _ _)
  rw [← h.section_eq]
  exact h.config.insert (.inr hsecret)

/-- Lines behind the header of a section that are the same but for what stands behind the first
equals sign of lines for secret names. -/
inductive SameButSecrets : String → List (List Char) → List (List Char) → Prop
  | nil (sectionName : String) : SameButSecrets sectionName [] []
  | same {sectionName : String} {l : List Char} {ls ls' : List (List Char)}
      (h : SameButSecrets (sectionBehind sectionName [Line.ofText l]) ls ls') :
      SameButSecrets sectionName (l :: ls) (l :: ls')
  | secret {sectionName : String} {left right right' key value : List Char}
      {ls ls' : List (List Char)} (hleft : '=' ∉ left)
      (hline : Line.ofText (left ++ '=' :: right) = .entry key value)
      (hsecret : isSecret (entryName sectionName (.ofList key)) = true)
      (h : SameButSecrets sectionName ls ls') :
      SameButSecrets sectionName ((left ++ '=' :: right) :: ls) ((left ++ '=' :: right') :: ls')

theorem sectionName_add (p : Parsing) (l : Line) :
    (p.add l).sectionName = sectionBehind p.sectionName [l] := by
  cases l <;> rfl

/-- **Lines that differ in secrets only** leave what looks alike so. -/
theorem looksLike_lines {sectionName : String} {ls ls' : List (List Char)}
    (hlines : SameButSecrets sectionName ls ls') {p p' : Parsing} (h : p.LooksLike p')
    (hsection : p.sectionName = sectionName) :
    ((ls.map Line.ofText).foldl Parsing.add p).LooksLike
      ((ls'.map Line.ofText).foldl Parsing.add p') := by
  induction hlines generalizing p p' with
  | nil => exact h
  | same _ ih => exact ih (h.add _) (by rw [sectionName_add, hsection])
  | @secret _ left right right' key value ls ls' hleft hline hsecret _ ih =>
    obtain ⟨value', hline'⟩ := Line.ofText_keyed hleft hline right'
    rw [List.map_cons, List.map_cons, List.foldl_cons, List.foldl_cons, hline, hline']
    rw [← hsection] at hsecret
    exact ih (h.add_secret hsecret value value') hsection

/-- A line feed at the end of a text does not matter. -/
theorem foldl_linesRead (p : Parsing) (text : String) :
    ((linesOf text.toList).map Line.ofText).foldl Parsing.add p =
      ((linesRead text).map Line.ofText).foldl Parsing.add p := by
  rw [linesRead]
  split
  · rename_i hlast
    obtain ⟨front, hfront⟩ := List.getLast?_eq_some_iff.1 hlast
    rw [hfront, List.dropLast_concat, List.map_append, List.foldl_append]
    rfl
  · rfl

/-- **Texts that differ in secrets only** leave what looks alike so, and make the same notes. -/
theorem looksLike_parse {c c' : Config} (h : c.LooksLike c') {text text' : String}
    (htexts : SameButSecrets "" (linesRead text) (linesRead text')) :
    (c.parse text).1.LooksLike (c'.parse text').1 ∧ (c.parse text).2 = (c'.parse text').2 := by
  have hstart : Parsing.LooksLike { config := c } { config := c' } := ⟨h, rfl, rfl⟩
  have hread := looksLike_lines htexts hstart rfl
  rw [← foldl_linesRead, ← foldl_linesRead] at hread
  exact ⟨hread.config, congrArg List.reverse hread.notes_eq⟩

end Config

open Config

/-- **Secrets are not shown.**  Two texts are the same, line by line, but for what stands behind the
first equals sign of lines whose names speak of a password or a secret, whatever it is.  Whichever
of them is read, the configuration is shown in the same way.  Its names are the same, in the order
in which they are kept, and each is shown by the same line; and the notes made in reading are the
same. -/
theorem dump_hides_secrets (c : Config) {text text' : String}
    (h : SameButSecrets "" (linesRead text) (linesRead text')) :
    (c.parse text).1.dump = (c.parse text').1.dump ∧
      (c.parse text).1.entries.map dumpLine = (c.parse text').1.entries.map dumpLine ∧
      (c.parse text).1.entries.map Prod.fst = (c.parse text').1.entries.map Prod.fst ∧
      (c.parse text).2 = (c.parse text').2 := by
  obtain ⟨hlooks, hnotes⟩ := looksLike_parse (.refl c) h
  obtain ⟨hdump, hlines, hnames⟩ := hlooks.shown_same
  exact ⟨hdump, hlines, hnames, hnotes⟩

/-- A secret with an equals sign, a bracket and a hash in it, and none at all. -/
theorem dump_hides_secrets_with_marks :
    let text := "[db]\nuser = admin\n password = a=[b] # c\nhost\n"
    let text' := "[db]\nuser = admin\n password =\nhost"
    SameButSecrets "" (linesRead text) (linesRead text') ∧
      (({} : Config).parse text).1.get "db" "password" = "a=[b] # c" ∧
      (({} : Config).parse text').1.get "db" "password" = "" ∧
      (({} : Config).parse text).1.dump = (({} : Config).parse text').1.dump ∧
      (({} : Config).parse text).1.entries.map Prod.fst =
        (({} : Config).parse text').1.entries.map Prod.fst := by
  intro text text'
  have hread : linesRead text = ["[db]".toList, "user = admin".toList,
      " password ".toList ++ '=' :: " a=[b] # c".toList, "host".toList] := by decide
  have hread' : linesRead text' = ["[db]".toList, "user = admin".toList,
      " password ".toList ++ '=' :: [], "host".toList] := by decide
  have hline : Line.ofText (" password ".toList ++ '=' :: " a=[b] # c".toList) =
      .entry "password".toList "a=[b] # c".toList := by decide
  have hsecret : SameButSecrets "db"
      [" password ".toList ++ '=' :: " a=[b] # c".toList, "host".toList]
      [" password ".toList ++ '=' :: [], "host".toList] :=
    .secret (by decide) hline (by decide) (.same (.nil _))
  have h : SameButSecrets "" (linesRead text) (linesRead text') := by
    rw [hread, hread']
    exact .same (.same hsecret)
  obtain ⟨hdump, -, hnames, -⟩ := dump_hides_secrets {} h
  exact ⟨h, by decide, by decide, hdump, hnames⟩

end PacketTransport
