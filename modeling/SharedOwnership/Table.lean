/-!
# Tables with labels that are never used twice

A table hands out the labels 1, 2, 3, … in the order of insertion. An erased entry leaves its label
behind, so no later insertion meets a label that was ever handed out.

## Main definitions

* `Table` — the entries by label, with holes where entries were erased.
* `Table.get?`, `Table.insert`, `Table.modify`, `Table.erase` — the operations.
* `Table.toList` — the entries with their labels, in ascending order.
* `Table.values` — the entries without their labels.
-/

namespace SharedOwnership

/-- Entries by label; `none` where an entry was erased. -/
structure Table (α : Type) where
  entries : List (Option α) := []

namespace Table

variable {α : Type}

/-- The table without entries. -/
def empty : Table α := ⟨[]⟩

/-- The label that the next insertion hands out. -/
def next (t : Table α) : Nat := t.entries.length + 1

/-- The entry labelled `l`, unless it was erased or never inserted. -/
def get? (t : Table α) (l : Nat) : Option α :=
  match l with
  | 0 => none
  | i + 1 => t.entries[i]?.join

/-- Add an entry under the label `t.next`. -/
def insert (t : Table α) (a : α) : Table α := ⟨t.entries ++ [some a]⟩

/-- Change the entry labelled `l`, if there is one. -/
def modify (t : Table α) (l : Nat) (f : α → α) : Table α :=
  match l with
  | 0 => t
  | i + 1 => ⟨t.entries.modify i (Option.map f)⟩

/-- Remove the entry labelled `l`; its label stays used up. -/
def erase (t : Table α) (l : Nat) : Table α :=
  match l with
  | 0 => t
  | i + 1 => ⟨t.entries.set i none⟩

/-- The entries with their labels, in ascending order. -/
def toList (t : Table α) : List (Nat × α) :=
  t.entries.zipIdx.filterMap fun (a?, i) => a?.map (i + 1, ·)

/-- The entries without their labels. -/
def values (t : Table α) : List α := t.entries.filterMap id

@[simp] theorem get?_empty (l : Nat) : (empty : Table α).get? l = none := by
  cases l <;> simp [get?, empty]

@[simp] theorem get?_zero (t : Table α) : t.get? 0 = none := rfl

@[simp] theorem get?_succ (t : Table α) (i : Nat) : t.get? (i + 1) = t.entries[i]?.join := rfl

theorem get?_insert (t : Table α) (a : α) (l : Nat) :
    (t.insert a).get? l = if l = t.next then some a else t.get? l := by
  cases l with
  | zero => simp [next]
  | succ i =>
    simp only [get?_succ, insert, next, List.getElem?_append, Nat.add_right_cancel_iff]
    rcases Nat.lt_trichotomy i t.entries.length with h | h | h
    · rw [if_pos h, if_neg (by omega)]
    · simp [h]
    · rw [if_neg (by omega), if_neg (by omega), List.getElem?_eq_none (by simp; omega),
        List.getElem?_eq_none (by omega)]

theorem get?_modify (t : Table α) (k l : Nat) (f : α → α) :
    (t.modify k f).get? l = if k = l then (t.get? l).map f else t.get? l := by
  rcases k with _ | k
  · rcases l with _ | l <;> simp [modify]
  · rcases l with _ | l
    · simp [modify]
    · simp only [modify, get?_succ, List.getElem?_modify, Nat.add_right_cancel_iff]
      split
      · rcases t.entries[l]? with _ | _ | _ <;> rfl
      · simp

theorem get?_erase (t : Table α) (k l : Nat) :
    (t.erase k).get? l = if k = l then none else t.get? l := by
  rcases k with _ | k
  · rcases l with _ | l <;> simp [erase]
  · rcases l with _ | l
    · simp [erase]
    · simp only [erase, get?_succ, List.getElem?_set, Nat.add_right_cancel_iff]
      split
      · split <;> rfl
      · rfl

/-- Only what `f` makes of the entry counts. -/
theorem modify_congr {t : Table α} {l : Nat} {a : α} {f g : α → α} (h : t.get? l = some a)
    (hfg : f a = g a) : t.modify l f = t.modify l g := by
  rcases l with _ | i
  · rfl
  · rw [get?_succ, Option.join_eq_some_iff] at h
    simp only [modify, mk.injEq]
    apply List.ext_getElem?
    intro j
    simp only [List.getElem?_modify]
    split
    · next hij => simp [← hij, h, hfg]
    · rfl

theorem modify_modify (t : Table α) (l : Nat) (f g : α → α) :
    (t.modify l f).modify l g = t.modify l (g ∘ f) := by
  cases l with
  | zero => rfl
  | succ i => simp only [modify, List.modify_modify_eq, Option.map_comp_map]

@[simp] theorem next_insert (t : Table α) (a : α) : (t.insert a).next = t.next + 1 := by
  simp [next, insert]

@[simp] theorem next_modify (t : Table α) (l : Nat) (f : α → α) :
    (t.modify l f).next = t.next := by
  cases l <;> simp [modify, next]

@[simp] theorem next_erase (t : Table α) (l : Nat) : (t.erase l).next = t.next := by
  cases l <;> simp [erase, next]

/-- A label that was not handed out yet names no entry. -/
theorem get?_of_next_le {t : Table α} {l : Nat} (h : t.next ≤ l) : t.get? l = none := by
  cases l with
  | zero => rfl
  | succ i =>
    rw [next] at h
    rw [get?_succ, List.getElem?_eq_none (by omega)]
    rfl

/-- A label that names an entry was handed out. -/
theorem lt_next_of_get? {t : Table α} {l : Nat} {a : α} (h : t.get? l = some a) : l < t.next := by
  rcases Nat.lt_or_ge l t.next with hl | hl
  · exact hl
  · rw [get?_of_next_le hl] at h
    cases h

@[simp] theorem values_insert (t : Table α) (a : α) : (t.insert a).values = t.values ++ [a] := by
  simp [values, insert]

/-- Erasing an entry takes it out of the values. -/
theorem perm_values {t : Table α} {l : Nat} {a : α} (h : t.get? l = some a) :
    t.values.Perm (a :: (t.erase l).values) := by
  obtain ⟨entries⟩ := t
  rcases l with _ | i
  · cases h
  · simp only [get?_succ] at h
    simp only [values, erase]
    induction entries generalizing i with
    | nil => cases h
    | cons e rest ih =>
      rcases i with _ | i
      · obtain rfl : e = some a := by simpa using h
        simp
      · have hrest := ih i (by simpa using h)
        rcases e with _ | e
        · simpa using hrest
        · simpa using (hrest.cons e).trans (.swap ..)

/-- Erasing an entry undoes what was changed in it. -/
@[simp] theorem erase_modify (t : Table α) (l : Nat) (f : α → α) :
    (t.modify l f).erase l = t.erase l := by
  rcases l with _ | i
  · rfl
  · simp only [modify, erase, mk.injEq]
    apply List.ext_getElem?
    intro j
    simp only [List.getElem?_set, List.length_modify, List.getElem?_modify]
    split
    · rfl
    · simp

/-- The values are what the labels name. -/
theorem mem_values {t : Table α} {a : α} : a ∈ t.values ↔ ∃ l, t.get? l = some a := by
  simp only [values, List.mem_filterMap, id]
  constructor
  · rintro ⟨_, hmem, rfl⟩
    obtain ⟨i, hi⟩ := List.getElem?_of_mem hmem
    exact ⟨i + 1, by simp [hi]⟩
  · rintro ⟨_ | i, hl⟩
    · cases hl
    · rw [get?_succ, Option.join_eq_some_iff] at hl
      exact ⟨some a, List.mem_of_getElem? hl, rfl⟩

/-- Without values no label names an entry. -/
theorem get?_of_values_eq_nil {t : Table α} (h : t.values = []) (l : Nat) : t.get? l = none := by
  refine Option.eq_none_iff_forall_ne_some.2 fun a hl => ?_
  have hmem : a ∈ t.values := mem_values.2 ⟨l, hl⟩
  rw [h] at hmem
  cases hmem

end Table

end SharedOwnership
