import LedgerIndex.Store.Session

/-!
# Edits

Seen from one key of one table a change is an edit: it fills a place that is empty, and
revises a row that is there. Of two writes of one row the later decides, so writing
something before it is written anyway makes no difference. A list of such edits that is
made a second time leaves every row as it is. Only where a place was empty it matters
which edit comes first.
-/
namespace LedgerIndex

structure Edit (ν : Type) where
  fresh : Option ν
  revise : ν → ν

namespace Edit

variable {ν : Type}

def apply (e : Edit ν) : Option ν → Option ν
  | none => e.fresh
  | some old => some (e.revise old)

def applyAll (es : List (Edit ν)) (place : Option ν) : Option ν :=
  es.foldl (fun place e => e.apply place) place

def reviseAll (es : List (Edit ν)) (row : ν) : ν :=
  es.foldl (fun row e => e.revise row) row

/-- Each edit undoes what the others have done to its own earlier work. -/
structure Absorbing (es : List (Edit ν)) : Prop where
  twice : ∀ e ∈ es, ∀ row, e.revise (e.revise row) = e.revise row
  around : ∀ e ∈ es, ∀ f ∈ es, ∀ row,
    e.revise (f.revise (e.revise row)) = e.revise (f.revise row)
  fresh : ∀ e ∈ es, ∀ row, e.fresh = some row → e.revise row = row

theorem applyAll_append (es more : List (Edit ν)) (place : Option ν) :
    applyAll (es ++ more) place = applyAll more (applyAll es place) := by
  simp [applyAll]

theorem applyAll_some (es : List (Edit ν)) (row : ν) :
    applyAll es (some row) = some (reviseAll es row) := by
  induction es generalizing row with
  | nil => rfl
  | cons e es ih => exact ih (e.revise row)

theorem applyAll_none {es : List (Edit ν)} (h : ∀ e ∈ es, e.fresh = none) :
    applyAll es none = none := by
  induction es with
  | nil => rfl
  | cons e es ih =>
    change applyAll es e.fresh = none
    rw [h e List.mem_cons_self]
    exact ih fun f hf => h f (List.mem_cons_of_mem _ hf)

namespace Absorbing

variable {es : List (Edit ν)}

theorem tail {e : Edit ν} (h : Absorbing (e :: es)) : Absorbing es where
  twice f hf := h.twice f (List.mem_cons_of_mem _ hf)
  around f hf g hg := h.around f (List.mem_cons_of_mem _ hf) g (List.mem_cons_of_mem _ hg)
  fresh f hf := h.fresh f (List.mem_cons_of_mem _ hf)

/-- An edit that is among those to come may be left out now. -/
theorem reviseAll_revise (h : Absorbing es) {e : Edit ν} (he : e ∈ es) (row : ν) :
    reviseAll es (e.revise row) = reviseAll es row := by
  induction es generalizing row with
  | nil => simp at he
  | cons f es ih =>
    change reviseAll es (f.revise (e.revise row)) = reviseAll es (f.revise row)
    by_cases rest : e ∈ es
    · -- the edit comes once more after f, so it may be made there instead
      calc reviseAll es (f.revise (e.revise row))
          = reviseAll es (e.revise (f.revise (e.revise row))) := (ih h.tail rest _).symm
        _ = reviseAll es (e.revise (f.revise row)) := by
            rw [h.around e he f List.mem_cons_self]
        _ = reviseAll es (f.revise row) := ih h.tail rest _
    · obtain rfl : e = f := (List.mem_cons.mp he).resolve_right rest
      rw [h.twice e List.mem_cons_self]

theorem reviseAll_reviseAll (h : Absorbing es) {earlier : List (Edit ν)}
    (known : ∀ e ∈ earlier, e ∈ es) (row : ν) :
    reviseAll es (reviseAll earlier row) = reviseAll es row := by
  induction earlier generalizing row with
  | nil => rfl
  | cons e earlier ih =>
    change reviseAll es (reviseAll earlier (e.revise row)) = reviseAll es row
    rw [ih fun f hf => known f (List.mem_cons_of_mem _ hf)]
    exact h.reviseAll_revise (known e List.mem_cons_self) row

/-- A row that was there before is the same after the second time. -/
theorem applyAll_twice_some (h : Absorbing es) (row : ν) :
    applyAll es (applyAll es (some row)) = applyAll es (some row) := by
  simp only [applyAll_some]
  rw [h.reviseAll_reviseAll fun _ he => he]

/-- So is a row that was written by the first edit of its place. -/
theorem applyAll_twice_none {e : Edit ν} {row : ν} (h : Absorbing (e :: es))
    (fresh : e.fresh = some row) :
    applyAll (e :: es) (applyAll (e :: es) none) = applyAll (e :: es) none := by
  have first : applyAll (e :: es) none = some (reviseAll es row) := by
    change applyAll es e.fresh = _
    rw [fresh, applyAll_some]
  rw [first, applyAll_some, h.reviseAll_reviseAll fun _ hf => List.mem_cons_of_mem _ hf]
  change some (reviseAll es (e.revise row)) = _
  rw [h.fresh e List.mem_cons_self row fresh]

end Absorbing
end Edit

structure Facet (κ ν : Type) [Ord κ] where
  table : Tables → Table κ ν
  edit : Change → κ → Option (Edit ν)

namespace Facet

variable {κ ν : Type} [Ord κ]

def edits (f : Facet κ ν) (cs : List Change) (k : κ) : List (Edit ν) :=
  cs.flatMap fun c => (f.edit c k).toList

theorem edits_append (f : Facet κ ν) (cs ds : List Change) (k : κ) :
    f.edits (cs ++ ds) k = f.edits cs k ++ f.edits ds k := by
  simp [edits]

/-- The first edit of a place is made by some change, and none before it edits the place. -/
theorem exists_first {f : Facet κ ν} {cs : List Change} {k : κ} {e : Edit ν} {es : List (Edit ν)}
    (h : f.edits cs k = e :: es) : ∃ pre c post, cs = pre ++ c :: post ∧ f.edits pre k = [] ∧
      f.edit c k = some e ∧ f.edits post k = es := by
  induction cs with
  | nil => cases h
  | cons c cs ih =>
    cases hc : f.edit c k with
    | some e' =>
      have : e' :: f.edits cs k = e :: es := by simpa [edits, hc] using h
      cases this
      exact ⟨[], c, cs, rfl, rfl, hc, rfl⟩
    | none =>
      have skip (ds : List Change) : f.edits (c :: ds) k = f.edits ds k := by simp [edits, hc]
      obtain ⟨pre, c', post, rfl, before, made, after⟩ := ih ((skip cs).symm.trans h)
      exact ⟨c :: pre, c', post, rfl, (skip pre).trans before, made, after⟩

def FillsFirst (f : Facet κ ν) (cs : List Change) : Prop :=
  ∀ k e es, f.edits cs k = e :: es → e.fresh.isSome = true

variable [Std.TransOrd κ]

def Sound (f : Facet κ ν) : Prop :=
  ∀ (t : Tables) (c : Change) (k : κ),
    (f.table (c.apply t))[k]? = Edit.applyAll (f.edit c k).toList (f.table t)[k]?

theorem Sound.applyAll {f : Facet κ ν} (sound : f.Sound) (t : Tables) (cs : List Change) (k : κ) :
    (f.table (Change.applyAll t cs))[k]? = Edit.applyAll (f.edits cs k) (f.table t)[k]? := by
  induction cs generalizing t with
  | nil => rfl
  | cons c cs ih =>
    rw [Change.applyAll_cons, ih, sound, ← Edit.applyAll_append]
    rfl

/-- Changes made a second time leave a table as it is, if the first to touch a place fills it. -/
theorem Sound.applyAll_twice [Std.LawfulEqOrd κ] {f : Facet κ ν} (sound : f.Sound)
    {cs : List Change} (absorbing : ∀ k, Edit.Absorbing (f.edits cs k)) (fills : f.FillsFirst cs)
    (t : Tables) :
    f.table (Change.applyAll (Change.applyAll t cs) cs) = f.table (Change.applyAll t cs) := by
  ext k : 1
  rw [sound.applyAll, sound.applyAll]
  have absorbing := absorbing k
  have fills := fills k
  cases before : (f.table t)[k]? with
  | some row => exact absorbing.applyAll_twice_some row
  | none =>
    cases all : f.edits cs k with
    | nil => rfl
    | cons e es =>
      rw [all] at absorbing
      obtain ⟨row, fresh⟩ := Option.isSome_iff_exists.mp (fills e es all)
      exact absorbing.applyAll_twice_none fresh

end Facet
end LedgerIndex
