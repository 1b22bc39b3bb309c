import Mathlib.Data.String.Basic
import SharedOwnership.Heap

/-!
# Parts that data have

A pointer is narrowed without looking at the memory behind it, so that it stays inside its resource
is a matter of types. `Content.HasPart` says which parts data have at which type; the parts that
projections make of such parts are such parts again, and a part that data have can be read.

## Main definitions

* `Content.HasPart` — whether data have a part at a type.
* `Projection.IsPart` — whether a projection stays in the region of its argument.
-/

namespace SharedOwnership

namespace Text

/-- A cut behind the last character is possible. -/
theorem takeBytes_utf8Len (cs : List Char) : takeBytes cs (String.utf8Len cs) = some cs := by
  induction cs with
  | nil => rfl
  | cons c cs ih =>
    have hpos : 0 < c.utf8Size := c.utf8Size_pos
    obtain ⟨n, hn⟩ : ∃ n, String.utf8Len (c :: cs) = n + 1 :=
      ⟨_, (Nat.succ_pred_eq_of_pos (by simp [hpos])).symm⟩
    have hrest : n + 1 - c.utf8Size = String.utf8Len cs := by
      rw [← hn, String.utf8Len_cons]
      omega
    rw [hn, takeBytes, if_pos (by rw [← hn, String.utf8Len_cons]; omega), hrest, ih]
    rfl

theorem byteSlice_whole (s : String) : (byteSlice s 0 s.utf8ByteSize).isSome := by
  have hsize : s.utf8ByteSize = String.utf8Len s.toList := by
    rw [← String.utf8ByteSize_ofList, String.ofList_toList]
  rw [byteSlice, if_pos (Nat.zero_le _), dropBytes, Option.bind_some, Nat.sub_zero, hsize,
    takeBytes_utf8Len]
  rfl

end Text

/-- Whether a projection stays in the region of its argument. -/
def Projection.IsPart (f : Projection) : Prop :=
  ∀ text q q', f.apply text q = .ok q' → q'.region = q.region

/-- Only the constant leads out of the region of the argument. -/
theorem Projection.region_apply {f : Projection} {text : String} {q q' : Pointer}
    (hf : f ≠ .constant) (h : f.apply text q = .ok q') : q'.region = q.region := by
  cases f with
  | constant => exact absurd rfl hf
  | panic => cases h
  | self | object | x | p | xObject | row | value =>
    cases h
    rfl
  | range | item =>
    simp only [apply] at h
    repeat' split at h
    all_goals first | cases h; rfl | cases h

/-- Every projection but the constant stays in the region of its argument. -/
theorem Projection.isPart_iff {f : Projection} : f.IsPart ↔ f ≠ .constant := by
  constructor
  · rintro h rfl
    cases h "" ⟨.resource 0, .whole⟩ ⟨.constant, .whole⟩ rfl
  · exact fun hf _ _ _ h => region_apply hf h

namespace Content

/-- Whether data have a part at a type. -/
def HasPart (c : Content) (ty : Ty) : Part → Prop
  | .whole => c.ty.isSized ∧ c.fits ty
  | .x | .p => (ty = .int ∨ ty = .object) ∧ ∃ r, c = .record r
  | .value => (ty = .int ∨ ty = .object) ∧ ∃ v, c = .node v
  | .slice row start stop => ty = .list ∧ ∃ xs, c.row row = some xs ∧ start ≤ stop ∧ stop ≤ xs.length
  | .item row index => (ty = .int ∨ ty = .object) ∧ ∃ xs, c.row row = some xs ∧ index < xs.length
  | .bytes start stop => ty = .text ∧ ∃ s, c = .text s ∧ (Text.byteSlice s start stop).isSome

variable {c : Content} {ty : Ty}

/-- Data have all of themselves as a part. -/
theorem hasPart_extent (h : c.fits ty) : c.HasPart ty c.extent := by
  cases c with
  | int | unit | record | node => exact ⟨rfl, h⟩
  | text s =>
    rcases fits_iff.1 h with rfl | ⟨-, hs⟩
    · exact ⟨rfl, s, rfl, Text.byteSlice_whole s⟩
    · cases hs
  | list xs =>
    rcases fits_iff.1 h with rfl | ⟨-, hs⟩
    · exact ⟨rfl, xs, rfl, Nat.zero_le _, Nat.le_refl _⟩
    · cases hs

/-- A part that data have can be read. -/
theorem isSome_read {part : Part} (h : c.HasPart ty part) (links : List Handle) :
    (Resource.read ⟨c, links⟩ ty part).isSome := by
  simp only [Resource.read, Option.isSome_map]
  cases part with
  | whole => rfl
  | x | p =>
    obtain ⟨-, r, rfl⟩ := h
    rfl
  | value =>
    obtain ⟨-, v, rfl⟩ := h
    rfl
  | slice row start stop =>
    obtain ⟨-, xs, hxs, -, -⟩ := h
    simp [Resource.part, hxs]
  | item row index =>
    obtain ⟨-, xs, hxs, hi⟩ := h
    simp [Resource.part, hxs, hi]
  | bytes start stop =>
    obtain ⟨-, s, rfl, hs⟩ := h
    simpa [Resource.part] using hs

/-- A part of a record at its own type is the whole record. -/
theorem record_of_hasPart {part : Part} (h : c.HasPart .record part) :
    part = .whole ∧ ∃ r, c = .record r := by
  cases part with
  | whole =>
    refine ⟨rfl, ?_⟩
    rcases fits_iff.1 h.2 with heq | ⟨heq, -⟩
    · cases c <;> first | exact ⟨_, rfl⟩ | cases heq
    · cases heq
  | x | p | value | slice | item | bytes => simp [HasPart] at h

/-- A part of a node at its own type is the whole node. -/
theorem node_of_hasPart {part : Part} (h : c.HasPart .node part) :
    part = .whole ∧ ∃ v, c = .node v := by
  cases part with
  | whole =>
    refine ⟨rfl, ?_⟩
    rcases fits_iff.1 h.2 with heq | ⟨heq, -⟩
    · cases c <;> first | exact ⟨_, rfl⟩ | cases heq
    · cases heq
  | x | p | value | slice | item | bytes => simp [HasPart] at h

/-- A part of a sized type is one with its type hidden, too. -/
theorem hasPart_object {part : Part} (h : c.HasPart ty part) (hty : ty.isSized) :
    c.HasPart .object part := by
  cases part with
  | whole => exact ⟨h.1, fits_iff.2 (.inr ⟨rfl, h.1⟩)⟩
  | x | p | value | item => exact ⟨.inr rfl, h.2⟩
  | slice | bytes =>
    obtain ⟨rfl, -⟩ := h
    cases hty

/-- A projection other than the constant makes parts that data have of parts that they have. -/
theorem hasPart_apply {f : Projection} {kind : Kind} {ty' : Ty} {text : String} {q q' : Pointer}
    (h : c.HasPart ty q.part) (hf : f ≠ .constant) (htarget : f.target kind ty = some ty')
    (htext : ∀ s, c = .text s → text = s) (happly : f.apply text q = .ok q') :
    c.HasPart ty' q'.part := by
  cases f with
  | self =>
    cases htarget
    cases happly
    exact h
  | panic => cases happly
  | constant => exact absurd rfl hf
  | object =>
    cases happly
    obtain ⟨hty, rfl⟩ : ty.isSized ∧ Ty.object = ty' := by simpa [Projection.target] using htarget
    exact hasPart_object h hty
  | x | p | xObject =>
    cases happly
    obtain ⟨rfl, rfl⟩ : ty = .record ∧ _ = ty' := by simpa [Projection.target] using htarget
    obtain ⟨-, r, rfl⟩ := record_of_hasPart h
    exact ⟨by simp, r, rfl⟩
  | row =>
    cases happly
    obtain ⟨rfl, rfl⟩ : ty = .record ∧ _ = ty' := by simpa [Projection.target] using htarget
    obtain ⟨-, r, rfl⟩ := record_of_hasPart h
    exact ⟨rfl, _, rfl, by simp⟩
  | value =>
    cases happly
    obtain ⟨rfl, rfl⟩ : ty = .node ∧ _ = ty' := by simpa [Projection.target] using htarget
    obtain ⟨-, v, rfl⟩ := node_of_hasPart h
    exact ⟨.inl rfl, v, rfl⟩
  | range lo hi =>
    obtain ⟨-, rfl⟩ : (ty = .list ∨ ty = .text ∧ kind = .strong) ∧ ty = ty' := by
      simpa [Projection.target] using htarget
    simp only [Projection.apply] at happly
    split at happly
    · next row start stop hpart =>
      rw [hpart] at h
      obtain ⟨rfl, xs, hxs, -, hstop⟩ := h
      split at happly
      · next hbounds =>
        cases happly
        exact ⟨rfl, xs, hxs, by omega, by omega⟩
      · cases happly
    · next start stop hpart =>
      rw [hpart] at h
      obtain ⟨rfl, s, rfl, -⟩ := h
      split at happly
      · next hbounds =>
        cases happly
        exact ⟨rfl, s, rfl, htext s rfl ▸ hbounds.2⟩
      · cases happly
    · cases happly
  | item index =>
    obtain ⟨rfl, rfl⟩ : ty = .list ∧ _ = ty' := by simpa [Projection.target] using htarget
    simp only [Projection.apply] at happly
    split at happly
    · next row start stop hpart =>
      rw [hpart] at h
      obtain ⟨-, xs, hxs, -, hstop⟩ := h
      split at happly
      · cases happly
        exact ⟨.inl rfl, xs, hxs, by omega⟩
      · cases happly
    · cases happly

end Content

end SharedOwnership
