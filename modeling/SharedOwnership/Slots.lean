import SharedOwnership.Handle

/-!
# Named slots

Handles live in slots, which are kept in ascending order of their names. No two slots have one name.

## Main definitions

* `Slots` — handles by name.
* `Slots.get?`, `Slots.put`, `Slots.erase` — the operations.

## Main results

* `Slots.ext_get?` — slots are what names stand for.
-/

namespace SharedOwnership

/-- The names ascend as long as there are none. -/
theorem sorted_nil_fst : ([] : List (String × Handle)).Pairwise (·.1 < ·.1) := .nil

/-- Handles by name, in ascending order of the names. -/
structure Slots where
  entries : List (String × Handle) := []
  /-- The names ascend, so a name stands for one slot. -/
  sorted : entries.Pairwise (·.1 < ·.1) := by exact sorted_nil_fst

namespace Slots

/-- The handle that a list of named handles has under a name. -/
def find (name : String) : List (String × Handle) → Option Handle
  | [] => none
  | (n, h) :: rest => if n = name then some h else find name rest

/-- Put a handle in front of the first name that is not smaller. -/
def insert (name : String) (h : Handle) : List (String × Handle) → List (String × Handle)
  | [] => [(name, h)]
  | (n, g) :: rest =>
    if n < name then (n, g) :: insert name h rest else (name, h) :: (n, g) :: rest

theorem perm_insert (name : String) (h : Handle) (entries : List (String × Handle)) :
    (insert name h entries).Perm ((name, h) :: entries) := by
  induction entries with
  | nil => rfl
  | cons e rest ih =>
    obtain ⟨n, g⟩ := e
    simp only [insert]
    split
    · exact (ih.cons _).trans (.swap ..)
    · rfl

/-- The names still ascend if a handle gets a new name. -/
theorem sorted_insert (name : String) (h : Handle) {entries : List (String × Handle)}
    (hsorted : entries.Pairwise (·.1 < ·.1)) (hfree : name ∉ entries.map Prod.fst) :
    (insert name h entries).Pairwise (·.1 < ·.1) := by
  induction entries with
  | nil => exact List.pairwise_singleton _ _
  | cons e rest ih =>
    obtain ⟨n, g⟩ := e
    simp only [List.map_cons, List.mem_cons, not_or] at hfree
    simp only [insert]
    split
    · next hlt =>
      refine List.pairwise_cons.2 ⟨?_, ih (List.pairwise_cons.1 hsorted).2 hfree.2⟩
      intro e he
      rcases List.mem_cons.1 ((perm_insert ..).mem_iff.1 he) with rfl | he
      · exact hlt
      · exact (List.pairwise_cons.1 hsorted).1 e he
    · next hle =>
      have hlt : name < n := Std.lt_of_le_of_ne (String.not_lt.1 hle) hfree.1
      refine List.pairwise_cons.2 ⟨?_, hsorted⟩
      intro e he
      rcases List.mem_cons.1 he with rfl | he
      · exact hlt
      · exact String.lt_trans hlt ((List.pairwise_cons.1 hsorted).1 e he)

theorem find_eq_none {name : String} {entries : List (String × Handle)} :
    find name entries = none ↔ name ∉ entries.map Prod.fst := by
  induction entries with
  | nil => simp [find]
  | cons e rest ih =>
    obtain ⟨n, g⟩ := e
    by_cases hn : n = name
    · simp [find, hn]
    · simp [find, hn, ih, Ne.symm hn]

theorem find_eq_some {name : String} {h : Handle} {entries : List (String × Handle)}
    (hd : (entries.map Prod.fst).Nodup) : find name entries = some h ↔ (name, h) ∈ entries := by
  induction entries with
  | nil => simp [find]
  | cons e rest ih =>
    obtain ⟨n, g⟩ := e
    simp only [List.map_cons, List.nodup_cons] at hd
    by_cases hn : n = name
    · subst hn
      have hnot : (n, h) ∉ rest := fun hmem => hd.1 (List.mem_map_of_mem hmem)
      simp [find, hnot, eq_comm]
    · simp [find, hn, ih hd.2, Ne.symm hn]

theorem find_insert (name other : String) (h : Handle) {entries : List (String × Handle)}
    (hfree : name ∉ entries.map Prod.fst) :
    find other (insert name h entries) = if name = other then some h else find other entries := by
  induction entries with
  | nil => rfl
  | cons e rest ih =>
    obtain ⟨n, g⟩ := e
    simp only [List.map_cons, List.mem_cons, not_or] at hfree
    simp only [insert]
    split
    · simp only [find, ih hfree.2]
      split
      · next hn => rw [if_neg fun h' => hfree.1 (h'.trans hn.symm)]
      · rfl
    · simp [find]

theorem find_filter (name other : String) (entries : List (String × Handle)) :
    find other (entries.filter fun e => e.1 ≠ name) =
      if name = other then none else find other entries := by
  induction entries with
  | nil => simp [find]
  | cons e rest ih =>
    obtain ⟨n, g⟩ := e
    by_cases hn : n = name
    · subst hn
      simp only [ne_eq, not_true_eq_false, decide_false, List.filter_cons_of_neg,
        Bool.false_eq_true, not_false_eq_true, ih, find]
      split <;> rfl
    · simp only [ne_eq, hn, not_false_eq_true, decide_true, List.filter_cons_of_pos, find, ih]
      split
      · next h => rw [if_neg fun h' => hn (h.trans h'.symm)]
      · rfl

theorem perm_filter {name : String} {h : Handle} {entries : List (String × Handle)}
    (hd : (entries.map Prod.fst).Nodup) (hg : find name entries = some h) :
    entries.Perm ((name, h) :: entries.filter fun e => e.1 ≠ name) := by
  induction entries with
  | nil => simp [find] at hg
  | cons e rest ih =>
    obtain ⟨n, g⟩ := e
    simp only [List.map_cons, List.nodup_cons] at hd
    simp only [find] at hg
    split at hg
    · next hn =>
      obtain rfl := Option.some.inj hg
      subst hn
      have hall : ∀ e ∈ rest, decide (e.1 ≠ n) = true := by
        intro e he
        exact decide_eq_true fun h' => hd.1 (h' ▸ List.mem_map_of_mem he)
      rw [List.filter_cons_of_neg (by simp), List.filter_eq_self.2 hall]
    · next hn =>
      rw [List.filter_cons_of_pos (by simpa using hn)]
      exact ((ih hd.2 hg).cons _).trans (.swap ..)

/-- The handle in a slot. -/
def get? (slots : Slots) (name : String) : Option Handle := find name slots.entries

/-- Empty a slot. -/
def erase (slots : Slots) (name : String) : Slots where
  entries := slots.entries.filter fun e => e.1 ≠ name
  sorted := slots.sorted.filter _

/-- Put a handle into a slot, in place of one that was there. -/
def put (slots : Slots) (name : String) (h : Handle) : Slots where
  entries := insert name h (slots.erase name).entries
  sorted := by
    apply sorted_insert name h (slots.erase name).sorted
    simp [erase]

/-- The names of the slots that hold a handle. -/
def names (slots : Slots) : List String := slots.entries.map Prod.fst

/-- A name stands for one slot. -/
theorem nodup (slots : Slots) : (slots.entries.map Prod.fst).Nodup := by
  rw [List.Nodup, List.pairwise_map]
  apply slots.sorted.imp
  intro e e' hlt heq
  rw [heq] at hlt
  exact String.lt_irrefl _ hlt

theorem get?_eq_some {slots : Slots} {name : String} {h : Handle} :
    slots.get? name = some h ↔ (name, h) ∈ slots.entries := find_eq_some slots.nodup

theorem get?_erase (slots : Slots) (name other : String) :
    (slots.erase name).get? other = if name = other then none else slots.get? other :=
  find_filter name other slots.entries

theorem get?_put (slots : Slots) (name other : String) (h : Handle) :
    (slots.put name h).get? other = if name = other then some h else slots.get? other := by
  have hfree : name ∉ (slots.erase name).entries.map Prod.fst := by simp [erase]
  rw [get?, put, find_insert _ _ _ hfree]
  split
  · rfl
  · next hn => exact (get?_erase slots name other).trans (if_neg hn)

/-- A slot holds the handle that was put into it. -/
@[simp] theorem get?_put_self (slots : Slots) (name : String) (h : Handle) :
    (slots.put name h).get? name = some h := by rw [get?_put, if_pos rfl]

@[simp] theorem get?_erase_self (slots : Slots) (name : String) :
    (slots.erase name).get? name = none := by rw [get?_erase, if_pos rfl]

/-- Putting a handle into one slot leaves the others as they are. -/
theorem get?_put_of_ne (slots : Slots) {name other : String} (h : Handle) (hn : other ≠ name) :
    (slots.put name h).get? other = slots.get? other := by rw [get?_put, if_neg hn.symm]

theorem get?_erase_of_ne (slots : Slots) {name other : String} (hn : other ≠ name) :
    (slots.erase name).get? other = slots.get? other := by rw [get?_erase, if_neg hn.symm]

/-- A handle that takes a slot adds to the handles there, less the one it displaces. -/
theorem perm_put (slots : Slots) (name : String) (h : Handle) :
    (slots.put name h).entries.Perm ((name, h) :: (slots.erase name).entries) := perm_insert ..

/-- Emptying a slot takes out the handle that was there. -/
theorem perm_erase {slots : Slots} {name : String} {h : Handle} (hg : slots.get? name = some h) :
    slots.entries.Perm ((name, h) :: (slots.erase name).entries) := perm_filter slots.nodup hg

/-- Emptying a vacant slot changes nothing. -/
theorem entries_erase_of_vacant {slots : Slots} {name : String} (hg : slots.get? name = none) :
    (slots.erase name).entries = slots.entries := by
  refine List.filter_eq_self.2 fun e he => decide_eq_true fun h => ?_
  exact find_eq_none.1 hg (h ▸ List.mem_map_of_mem he)

/-- Slots in which every name stands for the same handle, if for any, are the same. -/
theorem ext_get? {slots slots' : Slots} (h : ∀ name, slots.get? name = slots'.get? name) :
    slots = slots' := by
  have hnodup : ∀ slots : Slots, slots.entries.Nodup := by
    intro slots
    exact (List.pairwise_map.1 slots.nodup).imp fun hne heq => hne (congrArg Prod.fst heq)
  have hperm : slots.entries.Perm slots'.entries := by
    rw [List.perm_ext_iff_of_nodup (hnodup _) (hnodup _)]
    rintro ⟨name, g⟩
    rw [← get?_eq_some, h name, get?_eq_some]
  have hentries : slots.entries = slots'.entries :=
    hperm.eq_of_pairwise (fun _ _ _ _ hlt hlt' => absurd hlt' (String.lt_asymm hlt)) slots.sorted
      slots'.sorted
  obtain ⟨entries, hsorted⟩ := slots
  obtain ⟨entries', hsorted'⟩ := slots'
  obtain rfl : entries = entries' := hentries
  rfl

/-- Of two slots, one can be filled and the other one emptied in either order. -/
theorem erase_put_of_ne (slots : Slots) {name other : String} (h : Handle) (hne : name ≠ other) :
    (slots.put name h).erase other = (slots.erase other).put name h := by
  apply ext_get?
  intro slot
  rw [get?_erase, get?_put, get?_put, get?_erase]
  by_cases hother : other = slot
  · rw [if_pos hother, if_pos hother, if_neg fun hname => hne (hname.trans hother.symm)]
  · rw [if_neg hother, if_neg hother]

end Slots

end SharedOwnership
