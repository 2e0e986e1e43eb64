import PacketTransport.Table

/-!
# The places of a table

A table that is filled and cleared place by place has one entry a place, so its values are those of
its places.

* `Table.Distinct` — one entry a place; `distinct_set`, `distinct_erase` keep it;
* `Distinct.get?_eq_some_iff`, `Distinct.mem_values_iff` — the entries are what is found;
* `Distinct.perm_values`, `Distinct.perm_values_two` — the values with those of one or two places in
  front;
* `Distinct.perm_take`, `perm_settle` — a value leaves a place, a value gets into one.
-/

namespace PacketTransport

namespace Table

variable {α : Type} {t : Table α} {i j : Nat} {a b : α}

/-- The places that hold a value. -/
def keys (t : Table α) : List Nat := t.entries.map Prod.fst

/-- No place has two entries. -/
def Distinct (t : Table α) : Prop := t.keys.Nodup

theorem distinct_empty : ({} : Table α).Distinct := List.nodup_nil

theorem mem_keys_erase : j ∈ (t.erase i).keys ↔ j ∈ t.keys ∧ j ≠ i := by
  simp only [keys, erase, List.mem_map, List.mem_filter, bne_iff_ne]
  constructor
  · rintro ⟨e, ⟨he, hne⟩, rfl⟩
    exact ⟨⟨e, he, rfl⟩, hne⟩
  · rintro ⟨⟨e, he, rfl⟩, hne⟩
    exact ⟨e, ⟨he, hne⟩, rfl⟩

theorem Distinct.filter (h : t.Distinct) (p : Nat × α → Bool) :
    (Table.mk (t.entries.filter p)).Distinct :=
  h.sublist (List.filter_sublist.map Prod.fst)

theorem distinct_erase (h : t.Distinct) (i : Nat) : (t.erase i).Distinct := h.filter _

theorem distinct_set (h : t.Distinct) (i : Nat) (a : α) : (t.set i a).Distinct :=
  List.nodup_cons.2 ⟨fun hmem => (mem_keys_erase.1 hmem).2 rfl, distinct_erase h i⟩

/-! ### Entries and what is found -/

theorem Distinct.get?_eq_some_iff (h : t.Distinct) : t.get? i = some a ↔ (i, a) ∈ t.entries := by
  obtain ⟨l⟩ := t
  induction l with
  | nil => simp [get?]
  | cons e l ih =>
    obtain ⟨k, c⟩ := e
    obtain ⟨hk, hl⟩ := List.nodup_cons.1 h
    show ((k, c) :: l).lookup i = some a ↔ _
    rw [List.lookup_cons, List.mem_cons]
    by_cases hi : i = k
    · subst hi
      have hout : (i, a) ∉ l := fun hmem =>
        hk (show i ∈ l.map Prod.fst from List.mem_map_of_mem (f := Prod.fst) hmem)
      simp [hout, eq_comm]
    · have hbeq : (i == k) = false := by simpa using hi
      rw [hbeq]
      exact (ih hl).trans (by simp [hi])

theorem get?_eq_none_iff : t.get? i = none ↔ i ∉ t.keys := by
  rw [get?, List.lookup_eq_none_iff]
  constructor
  · intro h hmem
    obtain ⟨e, he, rfl⟩ := List.mem_map.1 hmem
    exact bne_iff_ne.1 (h e he) rfl
  · intro h e he
    exact bne_iff_ne.2 fun heq => h (heq ▸ List.mem_map_of_mem (f := Prod.fst) he)

theorem Distinct.mem_values_iff (h : t.Distinct) : a ∈ t.values ↔ ∃ i, t.get? i = some a := by
  simp only [values, List.mem_map, h.get?_eq_some_iff]
  exact ⟨fun ⟨e, he, ha⟩ => ⟨e.1, ha ▸ he⟩, fun ⟨i, hi⟩ => ⟨(i, a), hi, rfl⟩⟩

theorem erase_of_not_mem (h : i ∉ t.keys) : t.erase i = t := by
  have hall : ∀ e ∈ t.entries, (e.1 != i) = true := fun e he =>
    bne_iff_ne.2 fun heq => h (heq ▸ List.mem_map_of_mem (f := Prod.fst) he)
  rw [erase, List.filter_eq_self.2 hall]

@[simp] theorem values_set (t : Table α) (i : Nat) (a : α) :
    (t.set i a).values = a :: (t.erase i).values := rfl

theorem set_erase_self (t : Table α) (i : Nat) (a : α) : (t.erase i).set i a = t.set i a := by
  simp only [set, erase, List.filter_filter, Bool.and_self]

theorem set_set_self (t : Table α) (i : Nat) (a b : α) : (t.set i a).set i b = t.set i b := by
  have herase : (t.set i a).erase i = t.erase i := by
    simp [set, erase, List.filter_filter]
  rw [set, herase, set]

theorem get?_set (t : Table α) (i j : Nat) (a : α) :
    (t.set i a).get? j = if j = i then some a else t.get? j := by
  by_cases h : j = i
  · rw [if_pos h, h, get?_set_self]
  · rw [if_neg h, get?_set_ne t a h]

theorem get?_erase (t : Table α) (i j : Nat) :
    (t.erase i).get? j = if j = i then none else t.get? j := by
  by_cases h : j = i
  · rw [if_pos h, h, get?_erase_self]
  · rw [if_neg h, get?_erase_ne t h]

theorem get?_cons (l : List (Nat × α)) (k : Nat) (c : α) (i : Nat) :
    (Table.mk ((k, c) :: l)).get? i = if i = k then some c else (Table.mk l).get? i := by
  rw [get?, List.lookup_cons]
  by_cases hi : i = k
  · rw [if_pos hi, hi, beq_self_eq_true]
  · rw [if_neg hi, beq_eq_false_iff_ne.2 hi, get?]

/-- What is found when only some places are kept. -/
theorem get?_filter (t : Table α) (p : Nat → Bool) (i : Nat) :
    (Table.mk (t.entries.filter fun e => p e.1)).get? i = if p i then t.get? i else none := by
  obtain ⟨l⟩ := t
  induction l with
  | nil => exact (ite_self none).symm
  | cons e l ih =>
    obtain ⟨k, c⟩ := e
    rw [List.filter_cons]
    by_cases hk : p k = true
    · rw [if_pos hk, get?_cons, get?_cons, ih]
      by_cases hi : i = k
      · rw [if_pos hi, if_pos hi, hi, if_pos hk]
      · rw [if_neg hi, if_neg hi]
    · rw [if_neg hk, get?_cons, ih]
      by_cases hi : i = k
      · rw [if_pos hi, hi, if_neg hk, if_neg hk]
      · rw [if_neg hi]

/-- The values of a table, with that of one place in front. -/
theorem Distinct.perm_values (h : t.Distinct) (hget : t.get? i = some a) :
    t.values.Perm (a :: (t.erase i).values) := by
  obtain ⟨l⟩ := t
  induction l with
  | nil => cases hget
  | cons e l ih =>
    obtain ⟨k, c⟩ := e
    obtain ⟨hk, hl⟩ := List.nodup_cons.1 h
    rw [get?, List.lookup_cons] at hget
    by_cases hi : i = k
    · subst hi
      rw [beq_self_eq_true] at hget
      cases hget
      have hrest : (Table.mk l).erase i = Table.mk l := erase_of_not_mem hk
      have herase : (Table.mk ((i, a) :: l)).erase i = (Table.mk l).erase i := by
        simp [erase]
      rw [herase, hrest]
      exact .refl _
    · have hbeq : (i == k) = false := by simpa using hi
      rw [hbeq] at hget
      have herase : ((Table.mk ((k, c) :: l)).erase i).values =
          c :: ((Table.mk l).erase i).values := by
        simp [erase, values, Ne.symm hi]
      rw [herase]
      exact ((ih hl hget).cons c).trans (.swap a c _)

/-- A value is taken out of its place. -/
theorem Distinct.perm_take (h : t.Distinct) (hget : t.get? i = some a) (hand : List α) :
    (hand ++ t.values).Perm (a :: hand ++ (t.erase i).values) :=
  ((h.perm_values hget).append_left hand).trans List.perm_middle

/-- A value gets into a place that is free. -/
theorem perm_settle (hget : t.get? i = none) (hand : List α) :
    (a :: hand ++ t.values).Perm (hand ++ (t.set i a).values) := by
  rw [values_set, erase_of_not_mem (get?_eq_none_iff.1 hget)]
  exact List.perm_middle.symm

/-- The values of a table, with those of two places in front. -/
theorem Distinct.perm_values_two (h : t.Distinct) (hne : j ≠ i) (hi : t.get? i = some a)
    (hj : t.get? j = some b) : t.values.Perm (a :: b :: ((t.erase i).erase j).values) :=
  (h.perm_values hi).trans
    (((distinct_erase h i).perm_values ((get?_erase_ne t hne).trans hj)).cons a)

end Table

end PacketTransport
