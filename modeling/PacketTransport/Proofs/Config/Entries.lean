import PacketTransport.Config.Basic
import PacketTransport.Table

/-!
# What a configuration holds

A text says of some keys which values they have, each in the section that was named last.  Reading
it gives every name the value that was said last, and leaves the other names.

* `ConfigEntry`, `lastValue?` — keys with their values, and the last value among some;
* `Config.entriesFrom`, `Config.entriesIn` — the entries that lines, or a text, say;
* `Config.Stores` — a configuration holds these values and nothing else;
* `parse_fst` — reading a text adds its entries, one after the other;
* `lookup_parse` — where they have no name, what was there stays.
-/

namespace PacketTransport

/-- A key of a section with its value. -/
structure ConfigEntry where
  sectionName : String
  key : String
  value : String
deriving DecidableEq, Repr

namespace ConfigEntry

/-- The name that the value is kept under. -/
def name (e : ConfigEntry) : String := entryName e.sectionName e.key

/-- The value of the last one of some entries that passes a test. -/
def lastValue? (p : ConfigEntry → Bool) (es : List ConfigEntry) : Option String :=
  (es.reverse.find? p).map value

theorem lastValue?_cons (p : ConfigEntry → Bool) (e : ConfigEntry) (es : List ConfigEntry) :
    lastValue? p (e :: es) = (lastValue? p es).or (if p e then some e.value else none) := by
  rw [lastValue?, lastValue?, List.reverse_cons, List.find?_append, List.find?_singleton]
  cases es.reverse.find? p with
  | some found => rfl
  | none => cases p e <;> rfl

/-- There is a last value if any entry passes the test. -/
theorem isSome_lastValue? (p : ConfigEntry → Bool) (es : List ConfigEntry) :
    (lastValue? p es).isSome = true ↔ ∃ e ∈ es, p e = true := by
  rw [lastValue?, Option.isSome_map, List.find?_isSome]
  simp only [List.mem_reverse]

/-- Only the entries themselves are tested. -/
theorem lastValue?_congr {p q : ConfigEntry → Bool} {es : List ConfigEntry}
    (h : ∀ e ∈ es, p e = q e) : lastValue? p es = lastValue? q es := by
  induction es with
  | nil => rfl
  | cons e es ih =>
    rw [lastValue?_cons, lastValue?_cons, h e List.mem_cons_self,
      ih fun e' he' => h e' (List.mem_cons_of_mem _ he')]

end ConfigEntry

open ConfigEntry

namespace Config

/-! ### The values of names -/

theorem lookup_insert (c : Config) (name value other : String) :
    (c.insert name value).lookup other = if name = other then some value else c.lookup other := by
  show List.lookup other ((name, value) :: _) = _
  rw [List.lookup_cons]
  by_cases h : name = other
  · rw [if_pos h, h, beq_self_eq_true]
  · have hne : (other == name) = false := beq_false_of_ne fun e => h e.symm
    rw [if_neg h, hne]
    exact Table.lookup_filter_ne c.entries fun e => h e.symm

/-- A configuration holds these values and nothing else. -/
structure Stores (c : Config) (value? : String → Option String) : Prop where
  names_nodup : (c.entries.map Prod.fst).Nodup
  mem_iff : ∀ name value, (name, value) ∈ c.entries ↔ value? name = some value
  lookup_eq : ∀ name, c.lookup name = value? name

theorem mem_iff_lookup {l : List (String × String)} (h : (l.map Prod.fst).Nodup)
    (name value : String) : (name, value) ∈ l ↔ l.lookup name = some value := by
  induction l with
  | nil =>
    rw [List.lookup_nil]
    exact ⟨nofun, nofun⟩
  | cons e l ih =>
    obtain ⟨hfresh, hrest⟩ := List.nodup_cons.1 h
    rw [List.mem_cons, List.lookup_cons, ih hrest]
    by_cases he : name = e.1
    · have hnone : l.lookup name ≠ some value := fun hsome =>
        hfresh (he ▸ List.mem_map_of_mem ((ih hrest).2 hsome))
      rw [he, beq_self_eq_true, ← he, or_iff_left hnone, Option.some.injEq]
      constructor
      · rintro rfl
        rfl
      · intro hvalue
        rw [he, ← hvalue]
    · rw [beq_false_of_ne he, or_iff_right]
      rintro rfl
      exact he rfl

/-- No name stands twice. -/
def Distinct (c : Config) : Prop := (c.entries.map Prod.fst).Nodup

theorem Distinct.stores {c : Config} (h : c.Distinct) : c.Stores c.lookup :=
  ⟨h, mem_iff_lookup h, fun _ => rfl⟩

theorem Stores.congr {c : Config} {value? other? : String → Option String} (h : c.Stores value?)
    (heq : ∀ name, value? name = other? name) : c.Stores other? := funext heq ▸ h

theorem distinct_insert {c : Config} (h : c.Distinct) (name value : String) :
    (c.insert name value).Distinct := by
  refine List.nodup_cons.2 ⟨fun hmem => ?_, ?_⟩
  · obtain ⟨e, he, hname⟩ := List.mem_map.1 hmem
    have hne := (List.mem_filter.1 he).2
    rw [hname, bne_self_eq_false] at hne
    cases hne
  · exact List.Nodup.sublist (List.filter_sublist.map Prod.fst) h

/-- Some entries are added, one after the other. -/
def addAll (c : Config) (es : List ConfigEntry) : Config :=
  es.foldl (fun c e => c.insert e.name e.value) c

theorem distinct_addAll {c : Config} (h : c.Distinct) (es : List ConfigEntry) :
    (c.addAll es).Distinct := by
  induction es generalizing c with
  | nil => exact h
  | cons e es ih => exact ih (distinct_insert h e.name e.value)

/-- A name has its last value, or the one that it had. -/
theorem lookup_addAll (c : Config) (es : List ConfigEntry) (name : String) :
    (c.addAll es).lookup name = (lastValue? (·.name = name) es).or (c.lookup name) := by
  induction es generalizing c with
  | nil => rfl
  | cons e es ih =>
    show ((c.insert e.name e.value).addAll es).lookup name = _
    rw [ih, lookup_insert, lastValue?_cons, Option.or_assoc]
    by_cases h : e.name = name
    · rw [if_pos h, if_pos (decide_eq_true h)]
      rfl
    · rw [if_neg h, if_neg (by simpa using h)]
      rfl

/-! ### Reading -/

/-- The entries that lines say, behind the header of a section. -/
def entriesFrom (sectionName : String) : List Line → List ConfigEntry
  | [] => []
  | .header name :: ls => entriesFrom (.ofList name) ls
  | .entry key value :: ls =>
      ⟨sectionName, .ofList key, .ofList value⟩ :: entriesFrom sectionName ls
  | .nothing :: ls => entriesFrom sectionName ls
  | .unreadable _ :: ls => entriesFrom sectionName ls

/-- The entries that a text says. -/
def entriesIn (text : String) : List ConfigEntry :=
  entriesFrom "" ((linesOf text.toList).map Line.ofText)

theorem config_foldl_add (p : Parsing) (ls : List Line) :
    (ls.foldl Parsing.add p).config = p.config.addAll (entriesFrom p.sectionName ls) := by
  induction ls generalizing p with
  | nil => rfl
  | cons l ls ih =>
    rw [List.foldl_cons, ih]
    cases l <;> rfl

/-- **Reading** a text adds its entries. -/
theorem parse_fst (c : Config) (text : String) : (c.parse text).1 = c.addAll (entriesIn text) :=
  config_foldl_add { config := c } _

theorem distinct_new : ({} : Config).Distinct := List.nodup_nil

theorem distinct_parse {c : Config} (h : c.Distinct) (text : String) :
    (c.parse text).1.Distinct := by
  rw [parse_fst]
  exact distinct_addAll h _

/-- What a text read into an empty configuration leaves there. -/
theorem lookup_parse_new (text name : String) :
    (({} : Config).parse text).1.lookup name = lastValue? (·.name = name) (entriesIn text) := by
  rw [parse_fst, lookup_addAll]
  exact Option.or_none

/-- **Reading on.**  A name has the value that the text gives it, or else the one that it had. -/
theorem lookup_parse (c : Config) (text name : String) :
    (c.parse text).1.lookup name =
      ((({} : Config).parse text).1.lookup name).or (c.lookup name) := by
  rw [parse_fst, lookup_addAll, lookup_parse_new]

end Config

end PacketTransport
