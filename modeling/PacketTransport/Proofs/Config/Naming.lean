import PacketTransport.Proofs.Config.Entries

/-!
# Sections and keys in one name

A value is kept under one name: its section, a point and its key.  The name does not say which of
its points stands between the two, so a lookup answers for every section and key that make it up.
The number of points in the section tells them apart.

* `points`, `entryName_inj` — the points of a text, and what a name says along with them;
* `sectionBehind`, `Says`, `mem_entriesIn` — the entries of a text by the lines that they stand in;
* `ConfigEntry.Of` — an entry for a key in a section;
* `has_other_section` — a lookup that another section answers;
* `answers_by_name` — what a lookup answers, and when it is for its section and key.
-/

namespace PacketTransport

/-! ### Names -/

/-- The number of points in a text. -/
def points (text : String) : Nat := text.toList.count '.'

theorem toList_entryName (s k : String) : (entryName s k).toList = s.toList ++ '.' :: k.toList := by
  rw [entryName, String.toList_append, String.toList_append, List.append_assoc]
  rfl

theorem points_entryName (s k : String) : points (entryName s k) = points s + (points k + 1) := by
  rw [points, toList_entryName, List.count_append, List.count_cons_self, points, points]

/-- Two texts that a point divides agree if it is the same one of their points. -/
theorem divided_inj {front front' back back' : List Char}
    (h : front ++ '.' :: back = front' ++ '.' :: back')
    (hpoints : front.count '.' = front'.count '.') : front = front' ∧ back = back' := by
  induction front generalizing front' with
  | nil =>
    cases front' with
    | nil => exact ⟨rfl, (List.cons.inj h).2⟩
    | cons c front' =>
      rw [← (List.cons.inj h).1, List.count_cons_self] at hpoints
      cases hpoints
  | cons c front ih =>
    cases front' with
    | nil =>
      rw [(List.cons.inj h).1, List.count_cons_self] at hpoints
      cases hpoints
    | cons c' front' =>
      obtain ⟨rfl, hrest⟩ := List.cons.inj h
      rw [List.count_cons, List.count_cons] at hpoints
      obtain ⟨rfl, hback⟩ := ih hrest (Nat.add_right_cancel hpoints)
      exact ⟨rfl, hback⟩

/-- **A name** with the number of points in its section says which section and key it is for. -/
theorem entryName_inj {s s' k k' : String} (h : entryName s k = entryName s' k')
    (hpoints : points s = points s') : s = s' ∧ k = k' := by
  have hlist := congrArg String.toList h
  rw [toList_entryName, toList_entryName] at hlist
  obtain ⟨hs, hk⟩ := divided_inj hlist hpoints
  exact ⟨String.toList_injective hs, String.toList_injective hk⟩

namespace ConfigEntry

/-- An entry for a key in a section. -/
def Of (s k : String) (e : ConfigEntry) : Prop := e.sectionName = s ∧ e.key = k

instance (s k : String) : DecidablePred (Of s k) := fun e =>
  inferInstanceAs (Decidable (e.sectionName = s ∧ e.key = k))

theorem Of.name_eq {s k : String} {e : ConfigEntry} (h : e.Of s k) : e.name = entryName s k := by
  rw [name, h.1, h.2]

/-- Among the entries of one name, those for a section have as many points in theirs. -/
theorem of_iff_section {s k : String} {e : ConfigEntry} (h : e.name = entryName s k) :
    e.Of s k ↔ points e.sectionName = points s :=
  ⟨fun hof => congrArg points hof.1, entryName_inj h⟩

/-- It can be told from the keys as well. -/
theorem of_iff_key {s k : String} {e : ConfigEntry} (h : e.name = entryName s k) :
    e.Of s k ↔ points e.key = points k := by
  have hpoints := congrArg points h
  rw [name, points_entryName, points_entryName] at hpoints
  rw [of_iff_section h]
  omega

end ConfigEntry

namespace Config

open ConfigEntry

/-! ### Lines -/

/-- The section behind some lines, where it was another one before them. -/
def sectionBehind (sectionName : String) : List Line → String
  | [] => sectionName
  | .header name :: ls => sectionBehind (.ofList name) ls
  | .entry _ _ :: ls => sectionBehind sectionName ls
  | .nothing :: ls => sectionBehind sectionName ls
  | .unreadable _ :: ls => sectionBehind sectionName ls

theorem entriesFrom_append (sectionName : String) (front back : List Line) :
    entriesFrom sectionName (front ++ back) =
      entriesFrom sectionName front ++ entriesFrom (sectionBehind sectionName front) back := by
  induction front generalizing sectionName with
  | nil => rfl
  | cons l front ih =>
    cases l with
    | entry key value => exact congrArg (List.cons _) (ih sectionName)
    | header _ | nothing | unreadable _ => exact ih _

/-- A text says an entry in one of its lines, in the section of the header before it. -/
def Says (text : String) (e : ConfigEntry) : Prop :=
  ∃ front key value back,
    (linesOf text.toList).map Line.ofText = front ++ .entry key value :: back ∧
      e = ⟨sectionBehind "" front, .ofList key, .ofList value⟩

theorem exists_of_mem_entriesFrom {sectionName : String} {ls : List Line} {e : ConfigEntry}
    (h : e ∈ entriesFrom sectionName ls) :
    ∃ front key value back, ls = front ++ .entry key value :: back ∧
      e = ⟨sectionBehind sectionName front, .ofList key, .ofList value⟩ := by
  induction ls generalizing sectionName with
  | nil => cases h
  | cons l ls ih =>
    cases l with
    | entry key value =>
      rcases List.mem_cons.1 h with rfl | h
      · exact ⟨[], key, value, ls, rfl, rfl⟩
      · obtain ⟨front, key', value', back, rfl, he⟩ := ih h
        exact ⟨.entry key value :: front, key', value', back, rfl, he⟩
    | header _ | nothing | unreadable _ =>
      obtain ⟨front, key, value, back, rfl, he⟩ := ih h
      exact ⟨_ :: front, key, value, back, rfl, he⟩

theorem mem_entriesIn {text : String} {e : ConfigEntry} : e ∈ entriesIn text ↔ Says text e := by
  constructor
  · exact exists_of_mem_entriesFrom
  · rintro ⟨front, key, value, back, hlines, rfl⟩
    rw [entriesIn, hlines, entriesFrom_append]
    exact List.mem_append_right _ List.mem_cons_self

/-! ### Lookups -/

/-- What a lookup comes to is told by the names of the entries alone. -/
theorem lookups_of_names (text s k d : String) {p : ConfigEntry → Prop} [DecidablePred p]
    (h : ∀ e, Says text e → (e.name = entryName s k ↔ p e)) :
    ((({} : Config).parse text).1.has s k = true ↔ ∃ e, Says text e ∧ p e) ∧
      (({} : Config).parse text).1.get s k d =
        (lastValue? (fun e => p e) (entriesIn text)).getD d := by
  have hlast : lastValue? (·.name = entryName s k) (entriesIn text) =
      lastValue? (fun e => p e) (entriesIn text) :=
    lastValue?_congr fun e he => decide_eq_decide.2 (h e (mem_entriesIn.1 he))
  constructor
  · rw [has, lookup_parse_new, hlast, isSome_lastValue?]
    simp only [mem_entriesIn, decide_eq_true_eq]
  · rw [get, lookup_parse_new, hlast]

end Config

open ConfigEntry Config

/-- A key with a point in it answers for a section with a point in it. -/
theorem has_other_section :
    ¬ ((({} : Config).parse "[a]\nb.c = 1").1.has "a.b" "c" = true ↔
      ∃ e, Says "[a]\nb.c = 1" e ∧ e.Of "a.b" "c") := by
  intro h
  obtain ⟨e, he, hof⟩ := h.1 (by decide)
  have hnone : ∀ e ∈ entriesIn "[a]\nb.c = 1", ¬ e.Of "a.b" "c" := by decide
  exact hnone e (mem_entriesIn.2 he) hof

/-- **A lookup** answers by the name alone: a key has a value exactly if the text says an entry of
its name, and the value is that of the last one.  Such an entry is for the section and the key
exactly if the sections have as many points, or the keys.  If that holds of all of them, the lookup
answers for the section and the key. -/
theorem answers_by_name (text s k d : String) :
    ((({} : Config).parse text).1.has s k = true ↔ ∃ e, Says text e ∧ e.name = entryName s k) ∧
      (({} : Config).parse text).1.get s k d =
        (lastValue? (fun e => e.name = entryName s k) (entriesIn text)).getD d ∧
      (∀ e : ConfigEntry, e.name = entryName s k →
        (e.Of s k ↔ points e.sectionName = points s) ∧ (e.Of s k ↔ points e.key = points k)) ∧
      ((∀ e, Says text e → e.name = entryName s k →
          points e.sectionName = points s ∨ points e.key = points k) →
        ((({} : Config).parse text).1.has s k = true ↔ ∃ e, Says text e ∧ e.Of s k) ∧
          (({} : Config).parse text).1.get s k d =
            (lastValue? (fun e => e.Of s k) (entriesIn text)).getD d) := by
  obtain ⟨hhas, hget⟩ := lookups_of_names text s k d fun e _ => Iff.rfl
  refine ⟨hhas, hget, fun e he => ⟨of_iff_section he, of_iff_key he⟩, fun hplain => ?_⟩
  refine lookups_of_names text s k d fun e hsays => ⟨fun he => ?_, Of.name_eq⟩
  rcases hplain e hsays he with hsection | hkey
  · exact (of_iff_section he).2 hsection
  · exact (of_iff_key he).2 hkey

end PacketTransport
