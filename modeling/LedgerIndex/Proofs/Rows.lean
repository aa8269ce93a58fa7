import LedgerIndex.Store.Session

/-!
# Rows

Ways to speak of all rows of a table: what holds of each of them, and what becomes of each
of them from one state of the table to a later one, where none disappears. A write to one
key bears on both only through the row at that key. So writes to different keys can be made
in either order.
-/
namespace LedgerIndex.Table

variable {κ ν : Type} [Ord κ] [Std.TransOrd κ]

theorem mem_iff_getElem? {t : Table κ ν} {k : κ} : k ∈ t ↔ ∃ row, t[k]? = some row := by
  rw [← Std.ExtTreeMap.isSome_getElem?_iff_mem, Option.isSome_iff_exists]

@[simp] theorem mem_put [Std.LawfulEqOrd κ] [DecidableEq κ] (t : Table κ ν) (k k' : κ) (new : ν)
    (conflict : ν → ν) : k' ∈ t.put k new conflict ↔ k = k' ∨ k' ∈ t := by
  rw [← Std.ExtTreeMap.isSome_getElem?_iff_mem, getElem?_put]
  by_cases h : k = k'
  · simp [h]
  · simp [h]

@[simp] theorem mem_update [Std.LawfulEqOrd κ] [DecidableEq κ] (t : Table κ ν) (k k' : κ)
    (f : ν → ν) : k' ∈ t.update k f ↔ k' ∈ t := by
  rw [← Std.ExtTreeMap.isSome_getElem?_iff_mem, getElem?_update]
  by_cases h : k = k'
  · subst h
    simp
  · simp [h]

/-- A row that is there after an insertion was there before, or it is the new one. -/
theorem insertNew_cases [Std.LawfulEqOrd κ] [DecidableEq κ] {t : Table κ ν} {k k' : κ} {new row : ν}
    (found : (t.insertNew k new)[k']? = some row) : t[k']? = some row ∨ k ∉ t ∧ row = new := by
  rw [insertNew, getElem?_put] at found
  by_cases same : k = k'
  · subst same
    rw [if_pos rfl, Option.map_id_fun, id, Option.some.injEq] at found
    cases before : t[k]? with
    | some old =>
      rw [before] at found
      exact .inl (congrArg some found)
    | none =>
      rw [before] at found
      refine .inr ⟨?_, found.symm⟩
      rw [← Std.ExtTreeMap.isSome_getElem?_iff_mem, before]
      exact Bool.false_ne_true
  · rw [if_neg same] at found
    exact .inl found

def Every (P : κ → ν → Prop) (t : Table κ ν) : Prop :=
  ∀ k row, t[k]? = some row → P k row

namespace Every

variable {P : κ → ν → Prop} {t : Table κ ν}

theorem empty : Every P (∅ : Table κ ν) := by
  intro k row h
  simp at h

theorem put [Std.LawfulEqOrd κ] [DecidableEq κ] {k : κ} {new : ν} {conflict : ν → ν} (h : Every P t)
    (fresh : P k new) (revised : ∀ old, P k old → P k (conflict old)) :
    Every P (t.put k new conflict) := by
  intro k' row found
  rw [getElem?_put] at found
  by_cases same : k = k'
  · subst same
    rw [if_pos rfl, Option.some.injEq] at found
    cases before : t[k]? with
    | none =>
      rw [before] at found
      exact found ▸ fresh
    | some old =>
      rw [before] at found
      exact found ▸ revised old (h k old before)
  · rw [if_neg same] at found
    exact h k' row found

theorem update [Std.LawfulEqOrd κ] [DecidableEq κ] {k : κ} {f : ν → ν} (h : Every P t)
    (revised : ∀ old, P k old → P k (f old)) : Every P (t.update k f) := by
  intro k' row found
  rw [getElem?_update] at found
  by_cases same : k = k'
  · subst same
    rw [if_pos rfl] at found
    obtain ⟨old, before, rfl⟩ := Option.map_eq_some_iff.mp found
    exact revised old (h k old before)
  · rw [if_neg same] at found
    exact h k' row found

end Every

/-- Every row of a table is in a later one, as it was or as `R` lets it become. -/
def Extends (R : ν → ν → Prop) (t later : Table κ ν) : Prop :=
  ∀ (k : κ) (row : ν), t[k]? = some row → ∃ row', later[k]? = some row' ∧ R row row'

namespace Extends

variable {R : ν → ν → Prop} {t t' : Table κ ν}

theorem refl (self : ∀ row, R row row) (t : Table κ ν) : Extends R t t :=
  fun _ row h => ⟨row, h, self row⟩

theorem trans {t'' : Table κ ν} (join : ∀ {a b c}, R a b → R b c → R a c)
    (h : Extends R t t') (h' : Extends R t' t'') : Extends R t t'' := by
  intro k row found
  obtain ⟨row', found', first⟩ := h k row found
  obtain ⟨row'', found'', second⟩ := h' k row' found'
  exact ⟨row'', found'', join first second⟩

theorem put [Std.LawfulEqOrd κ] [DecidableEq κ] {k : κ} {new : ν} {conflict : ν → ν}
    (self : ∀ row, R row row) (revised : ∀ old, R old (conflict old)) (t : Table κ ν) :
    Extends R t (t.put k new conflict) := by
  intro k' row found
  rw [getElem?_put]
  by_cases same : k = k'
  · subst same
    exact ⟨conflict row, by simp [found], revised row⟩
  · exact ⟨row, by rw [if_neg same]; exact found, self row⟩

theorem update [Std.LawfulEqOrd κ] [DecidableEq κ] {k : κ} {f : ν → ν} (self : ∀ row, R row row)
    (revised : ∀ old, R old (f old)) (t : Table κ ν) : Extends R t (t.update k f) := by
  intro k' row found
  rw [getElem?_update]
  by_cases same : k = k'
  · subst same
    exact ⟨f row, by simp [found], revised row⟩
  · exact ⟨row, by rw [if_neg same]; exact found, self row⟩

theorem map [Std.LawfulEqOrd κ] {f : ν → ν} (revised : ∀ old, R old (f old)) (t : Table κ ν) :
    Extends R t (t.map fun _ row => f row) := by
  intro k row found
  refine ⟨f row, ?_, revised row⟩
  rw [Std.ExtTreeMap.getElem?_map, found]
  rfl

end Extends

def ActsAt (k : κ) (f : Table κ ν → Table κ ν) : Prop :=
  ∃ F : Option ν → Option ν, ∀ (t : Table κ ν) (x : κ),
    (k = x → (f t)[x]? = F t[k]?) ∧ (k ≠ x → (f t)[x]? = t[x]?)

namespace ActsAt

variable {k k' : κ} {f g : Table κ ν → Table κ ν}

theorem put [Std.LawfulEqOrd κ] [DecidableEq κ] (k : κ) (new : ν) (conflict : ν → ν) :
    ActsAt k (Table.put · k new conflict) := by
  refine ⟨fun row => some ((row.map conflict).getD new), fun t x => ⟨?_, ?_⟩⟩
  · rintro rfl
    rw [getElem?_put, if_pos rfl]
  · intro other
    rw [getElem?_put, if_neg other]

theorem update [Std.LawfulEqOrd κ] [DecidableEq κ] (k : κ) (revise : ν → ν) :
    ActsAt k (Table.update · k revise) := by
  refine ⟨Option.map revise, fun t x => ⟨?_, ?_⟩⟩
  · rintro rfl
    rw [getElem?_update, if_pos rfl]
  · intro other
    rw [getElem?_update, if_neg other]

/-- What is done at different keys can be done in either order. -/
theorem comm [Std.LawfulEqOrd κ] (hf : ActsAt k f) (hg : ActsAt k' g) (different : k ≠ k')
    (t : Table κ ν) : g (f t) = f (g t) := by
  obtain ⟨F, hf⟩ := hf
  obtain ⟨G, hg⟩ := hg
  ext x : 1
  by_cases first : k = x
  · subst first
    rw [(hg (f t) k).2 different.symm, (hf t k).1 rfl, (hf (g t) k).1 rfl,
      (hg t k).2 different.symm]
  · rw [(hf (g t) x).2 first]
    by_cases second : k' = x
    · subst second
      rw [(hg (f t) k').1 rfl, (hg t k').1 rfl, (hf t k').2 first]
    · rw [(hg (f t) x).2 second, (hf t x).2 first, (hg t x).2 second]

end ActsAt

/-- Rows can be revised before or after a row is put among them, if that row and what becomes of
an old one are revised likewise. -/
theorem map_put [Std.LawfulEqOrd κ] [DecidableEq κ] {u : ν → ν} {conflict conflict' : ν → ν}
    (k : κ) (new : ν) (revised : ∀ old, u (conflict old) = conflict' (u old)) (t : Table κ ν) :
    (t.put k new conflict).map (fun _ row => u row) =
      Table.put (t.map fun _ row => u row) k (u new) conflict' := by
  ext x : 1
  rw [Std.ExtTreeMap.getElem?_map, getElem?_put, getElem?_put]
  by_cases same : k = x
  · subst same
    rw [if_pos rfl, if_pos rfl, Std.ExtTreeMap.getElem?_map]
    cases t[k]? with
    | none => rfl
    | some old => exact congrArg some (revised old)
  · rw [if_neg same, if_neg same, Std.ExtTreeMap.getElem?_map]

/-- Two revisions of all rows can be made in either order, if they can at each row. -/
theorem map_map_comm [Std.LawfulEqOrd κ] {u v : ν → ν} (swap : ∀ row, u (v row) = v (u row))
    (t : Table κ ν) : (t.map fun _ row => v row).map (fun _ row => u row) =
      (t.map fun _ row => u row).map fun _ row => v row := by
  ext x : 1
  simp only [Std.ExtTreeMap.getElem?_map, Option.map_map]
  congr 1
  funext row
  exact swap row

end LedgerIndex.Table
