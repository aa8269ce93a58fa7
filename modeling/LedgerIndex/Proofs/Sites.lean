import LedgerIndex.Json.Record
import Mathlib.Data.List.Nodup

/-!
# Sites

What stands at a site of a tree is read there if the whole is read. The whole is refused with it
and depends on nothing else about it, and whatever the whole holds was read at some site. This is
so of a member of a record, in either form of the record, and of an item of a list; and it passes
on from the sites of a value to the sites within them.
-/
namespace LedgerIndex.Json

abbrev Sites := (Json → Json) → Prop

/-- The member of one name in a record with members of the given names. -/
inductive MemberSite (names : List String) (name : String) : (Json → Json) → Prop
  | named (before after : List (Bytes × Json)) (key : Bytes) : text? key = some name →
    MemberSite names name fun v => .object (before ++ (key, v) :: after)
  | inOrder (before after : List Json) : names[before.length]? = some name →
    MemberSite names name fun v => .array (before ++ v :: after)

inductive ItemSite : (Json → Json) → Prop
  | mk (before after : List Json) : ItemSite fun v => .array (before ++ v :: after)

def Sites.within (outer inner : Sites) : Sites := fun c =>
  ∃ around part, outer around ∧ inner part ∧ c = around ∘ part

theorem exists_of_mapM {α β : Type} {f : α → Option β} {xs : List α} {ys : List β} {y : β}
    (read : xs.mapM f = some ys) (member : y ∈ ys) :
    ∃ before x after, xs = before ++ x :: after ∧ f x = some y := by
  induction xs generalizing ys with
  | nil =>
    cases read
    cases member
  | cons x xs ih =>
    simp only [List.mapM_cons, Option.bind_eq_bind, Option.bind_eq_some_iff, Option.pure_def,
      Option.some.injEq] at read
    obtain ⟨first, here, others, rest, rfl⟩ := read
    rcases List.mem_cons.mp member with rfl | member
    · exact ⟨[], x, xs, rfl, here⟩
    · obtain ⟨before, x', after, rfl, there⟩ := ih rest member
      exact ⟨x :: before, x', after, rfl, there⟩

section

variable {names : List String} {name other : String} {c : Json → Json} {v : Json}

theorem lookup_member {before after : List (String × Json)} (absent : name ∉ before.map (·.1)) :
    (before ++ (name, v) :: after).lookup name = some v :=
  List.lookup_eq_some_iff.mpr ⟨before, after, rfl, fun p member => by
    rw [bne_iff_ne]
    rintro rfl
    exact absent (List.mem_map_of_mem member)⟩

theorem lookup_others {before after : List (String × Json)} (different : other ≠ name) :
    (before ++ (name, v) :: after).lookup other = (before ++ after).lookup other := by
  rw [List.lookup_append, List.lookup_append, List.lookup_cons, beq_false_of_ne different]

/-- Whatever stands at a member, the other members are the same. -/
theorem record?_member (site : MemberSite names name c) (nodup : names.Nodup)
    (known : name ∈ names) : (∀ v, record? names (c v) = none) ∨
      ∃ before after, name ∉ before.map (·.1) ∧
        ∀ v, record? names (c v) = some ⟨before ++ (name, v) :: after⟩ := by
  cases site with
  | named before after key spelled =>
    have kept (v : Json) (last : List (String × Json)) :
        ((name, v) :: last).filter (fun m => names.contains m.1) =
          (name, v) :: last.filter fun m => names.contains m.1 :=
      List.filter_cons_of_pos (List.contains_iff_mem.mpr known)
    simp only [record?, List.mapM_append, List.mapM_cons, spelled, Option.pure_def,
      Option.bind_eq_bind, Option.bind_some]
    generalize before.mapM (fun m => (text? m.1).bind fun t => some (t, m.2)) = first
    generalize after.mapM (fun m => (text? m.1).bind fun t => some (t, m.2)) = last
    match first, last with
    | none, _ => exact .inl fun v => rfl
    | some first, none => exact .inl fun v => rfl
    | some first, some last =>
      simp only [Option.bind_some, List.filter_append, kept, List.map_append, List.map_cons]
      split
      next once =>
        have absent := (List.nodup_cons.mp (List.nodup_middle.mp once)).1
        exact .inr ⟨_, _, fun first => absent (List.mem_append_left _ first), fun v => rfl⟩
      next => exact .inl fun v => rfl
  | inOrder before after position =>
    obtain ⟨within, stands⟩ := List.getElem?_eq_some_iff.mp position
    have length : (names.take before.length).length = before.length :=
      List.length_take_of_le (Nat.le_of_lt within)
    have parts : names = names.take before.length ++ name :: names.drop (before.length + 1) := by
      rw [← stands, List.getElem_cons_drop, List.take_append_drop]
    have absent : name ∉ names.take before.length := by
      rw [parts] at nodup
      have absent := (List.nodup_cons.mp (List.nodup_middle.mp nodup)).1
      exact fun first => absent (List.mem_append_left _ first)
    by_cases fits : before.length + (after.length + 1) ≤ names.length
    · refine .inr ⟨(names.take before.length).zip before,
        (names.drop (before.length + 1)).zip after, ?_, fun v => ?_⟩
      · rwa [List.map_fst_zip (Nat.le_of_eq length)]
      · rw [record?, if_pos (by simpa using fits)]
        congr 2
        conv_lhs => rw [parts]
        rw [List.zip_append length, List.zip_cons_cons]
    · exact .inl fun v => by rw [record?, if_neg (by simpa using fits)]

/-- A member that may be missing is missing and stands for a default, or is there. -/
theorem getD_eq_some {α : Type} {r : Record} {default a : α} {value : Json → Option α}
    (read : r.getD name default value = some a) : r.members.lookup name = none ∧ a = default ∨
      ∃ v, r.members.lookup name = some v ∧ value v = some a := by
  rw [Record.getD] at read
  split at read
  next missing => exact .inl ⟨missing, (Option.some.inj read).symm⟩
  next v there => exact .inr ⟨v, there, read⟩

theorem get_others {α : Type} {before after : List (String × Json)} (different : other ≠ name)
    (value : Json → Option α) : Record.get ⟨before ++ (name, v) :: after⟩ other value =
      Record.get ⟨before ++ after⟩ other value := by
  rw [Record.get, Record.get, lookup_others different]

theorem getD_others {α : Type} {before after : List (String × Json)} (different : other ≠ name)
    (default : α) (value : Json → Option α) :
    Record.getD ⟨before ++ (name, v) :: after⟩ other default value =
      Record.getD ⟨before ++ after⟩ other default value := by
  rw [Record.getD, Record.getD, lookup_others different]

theorem exists_member {j : Json} {r : Record} (read : record? names j = some r)
    (found : r.members.lookup name = some v) : ∃ c, MemberSite names name c ∧ j = c v := by
  cases j with
  | scalar s => cases read
  | array items =>
    simp only [record?, Option.ite_none_right_eq_some, Option.some.injEq] at read
    obtain ⟨-, rfl⟩ := read
    obtain ⟨before, after, parts, -⟩ := List.lookup_eq_some_iff.mp found
    have stands : (names.zip items)[before.length]? = some (name, v) := by
      rw [show names.zip items = _ from parts]
      simp
    obtain ⟨position, item⟩ := List.getElem?_zip_eq_some.mp stands
    obtain ⟨within, item⟩ := List.getElem?_eq_some_iff.mp item
    have length : (items.take before.length).length = before.length :=
      List.length_take_of_le (Nat.le_of_lt within)
    refine ⟨_, .inOrder (items.take before.length) (items.drop (before.length + 1))
      (by rwa [length]), ?_⟩
    rw [← show items[before.length] = v from item, List.getElem_cons_drop, List.take_append_drop]
  | object members =>
    simp only [record?, Option.bind_eq_bind, Option.bind_eq_some_iff, Option.ite_none_right_eq_some,
      Option.some.injEq] at read
    obtain ⟨named, all, -, rfl⟩ := read
    obtain ⟨first, last, parts, -⟩ := List.lookup_eq_some_iff.mp found
    have known : (name, v) ∈ named := by
      have kept : (name, v) ∈ named.filter fun m => names.contains m.1 := by
        rw [show named.filter _ = _ from parts]
        exact List.mem_append_right _ List.mem_cons_self
      exact (List.mem_filter.mp kept).1
    obtain ⟨before, ⟨key, w⟩, after, rfl, spelled⟩ := exists_of_mapM all known
    simp only [Option.pure_def, Option.bind_eq_some_iff, Option.some.injEq, Prod.mk.injEq]
      at spelled
    obtain ⟨_, spelled, rfl, rfl⟩ := spelled
    exact ⟨_, .named before after key spelled, rfl⟩

end

section

variable {α β γ : Type} {whole : Decoder α} {mid : Decoder γ} {part : Decoder β}

/-- What stands at a site is read there as a part of the whole. -/
structure ReadAt (sites : Sites) (whole : Decoder α) (part : Decoder β) (has : α → β → Prop) :
    Prop where
  /-- The whole is read from what is read there, and has it as a part. -/
  through : ∀ {c : Json → Json}, sites c → ∀ levels, ∃ (below : Nat) (f : β → Option α),
    (∀ v, whole levels (c v) = (part below v).bind f) ∧ ∀ {a b}, f b = some a → has a b
  /-- Every part was read at some site. -/
  found : ∀ {levels : Nat} {j : Json} {a : α} {b : β}, whole levels j = some a → has a b →
    ∃ (c : Json → Json) (v : Json) (below : Nat), sites c ∧ j = c v ∧ part below v = some b

/-- A reading that fails with another, and is the same if the other is, goes through it. -/
theorem exists_bind {read : Json → Option α} {inner : Json → Option β}
    (fails : ∀ {v}, inner v = none → read v = none)
    (same : ∀ {v w b}, inner v = some b → inner w = some b → read v = read w) :
    ∃ f, (∀ v, read v = (inner v).bind f) ∧
      ∀ {a b}, f b = some a → ∃ v, inner v = some b ∧ read v = some a := by
  classical
  refine ⟨fun b => if h : ∃ v, inner v = some b then read h.choose else none, fun v => ?_, ?_⟩
  · cases stands : inner v with
    | none => exact fails stands
    | some b =>
      have some_v : ∃ v, inner v = some b := ⟨v, stands⟩
      rw [Option.bind_some, dif_pos some_v]
      exact same stands some_v.choose_spec
  · intro a b reads
    rw [Option.dite_none_right_eq_some] at reads
    obtain ⟨some_v, reads⟩ := reads
    exact ⟨_, some_v.choose_spec, reads⟩

section

variable {name other : String} {value : Json → Option γ} {holds : γ → β → Prop}
  {has : α → β → Prop} {P : α → Prop} {δ : Type} {read : δ → Record → Option α}

/-- Whatever stands at the member of one name, the reading is the same. -/
def Ignores (name : String) (read : Record → Option α) : Prop :=
  ∀ before after v w, read ⟨before ++ (name, v) :: after⟩ = read ⟨before ++ (name, w) :: after⟩

theorem Ignores.get (different : other ≠ name) {value : Json → Option α} :
    Ignores name fun r => r.get other value :=
  fun _ _ _ _ => (get_others different value).trans (get_others different value).symm

theorem Ignores.getD (different : other ≠ name) {default : α} {value : Json → Option α} :
    Ignores name fun r => r.getD other default value :=
  fun _ _ _ _ => (getD_others different default value).trans
    (getD_others different default value).symm

/-- A reading of a record that takes nothing from the member of one name, and what it ends in. -/
structure Passes (name : String) (P : α → Prop) (read : Record → Option α) : Prop where
  ignores : Ignores name read
  result : ∀ {r a}, read r = some a → P a

theorem Passes.done {a : α} (ends : P a) : Passes name P fun _ => some a :=
  ⟨fun _ _ _ _ => rfl, fun same => Option.some.inj same ▸ ends⟩

theorem Passes.next {first : Record → Option δ} (ignores : Ignores name first)
    (rest : ∀ x, Passes name P (read x)) :
    Passes name P fun r => (first r).bind fun x => read x r where
  ignores before after v w := by
    simp only [ignores before after v w]
    exact bind_congr fun x => (rest x).ignores before after v w
  result h := by
    obtain ⟨x, -, h⟩ := Option.bind_eq_some_iff.mp h
    exact (rest x).result h

/-- A reading of a record that takes the member of one name as a value, fails with that, and ends
in what has the parts of the value. -/
structure Takes (name : String) (value : Json → Option γ) (holds : γ → β → Prop)
    (has : α → β → Prop) (read : Record → Option α) : Prop where
  fails : ∀ {before after v}, name ∉ before.map (·.1) → value v = none →
    read ⟨before ++ (name, v) :: after⟩ = none
  same : ∀ {before after v w m}, name ∉ before.map (·.1) → value v = some m → value w = some m →
    read ⟨before ++ (name, v) :: after⟩ = read ⟨before ++ (name, w) :: after⟩
  has_iff : ∀ {r a b}, read r = some a →
    (has a b ↔ ∃ v m, r.members.lookup name = some v ∧ value v = some m ∧ holds m b)

namespace Takes

theorem here {read : γ → Record → Option α}
    (rest : ∀ m, Passes name (fun a => ∀ b, has a b ↔ holds m b) (read m)) :
    Takes name value holds has fun r => (r.get name value).bind fun m => read m r where
  fails absent refused := by
    simp only [Record.get, lookup_member absent, Option.bind_some, refused, Option.bind_none]
  same absent first second := by
    simp only [Record.get, lookup_member absent, Option.bind_some, first, second]
    exact (rest _).ignores _ _ _ _
  has_iff h := by
    obtain ⟨m, there, h⟩ := Option.bind_eq_some_iff.mp h
    obtain ⟨v, stands, there⟩ := Option.bind_eq_some_iff.mp there
    rw [(rest m).result h]
    simp [stands, there]

theorem hereD {default : γ} {read : γ → Record → Option α} (nothing : ∀ b, ¬holds default b)
    (rest : ∀ m, Passes name (fun a => ∀ b, has a b ↔ holds m b) (read m)) :
    Takes name value holds has fun r => (r.getD name default value).bind fun m => read m r where
  fails absent refused := by simp only [Record.getD, lookup_member absent, refused, Option.bind_none]
  same absent first second := by
    simp only [Record.getD, lookup_member absent, first, second]
    exact (rest _).ignores _ _ _ _
  has_iff h := by
    obtain ⟨m, there, h⟩ := Option.bind_eq_some_iff.mp h
    rw [(rest m).result h]
    rcases getD_eq_some there with ⟨missing, rfl⟩ | ⟨v, stands, there⟩
    · simp [missing, nothing]
    · simp [stands, there]

theorem next {first : Record → Option δ} (ignores : Ignores name first)
    (rest : ∀ x, Takes name value holds has (read x)) :
    Takes name value holds has fun r => (first r).bind fun x => read x r where
  fails absent refused := by simp only [(rest _).fails absent refused, Option.bind_fun_none]
  same {before after v w m} absent here there := by
    simp only [ignores before after v w]
    exact bind_congr fun x => (rest x).same absent here there
  has_iff h := by
    obtain ⟨x, -, h⟩ := Option.bind_eq_some_iff.mp h
    exact (rest x).has_iff h

end Takes

end

namespace ReadAt

variable {sites : Sites} {has : α → β → Prop} {holds : γ → β → Prop}

/-- Where the whole is never read, nothing is read through. -/
theorem through_none {c : Json → Json} {levels : Nat} (refused : ∀ v, whole levels (c v) = none) :
    ∃ (below : Nat) (f : β → Option α), (∀ v, whole levels (c v) = (part below v).bind f) ∧
      ∀ {a b}, f b = some a → has a b :=
  ⟨0, fun _ => none, fun v => by rw [refused, Option.bind_fun_none], nofun⟩

theorem congr {has' : α → β → Prop} (h : ReadAt sites whole part has)
    (same : ∀ a b, has a b ↔ has' a b) : ReadAt sites whole part has' :=
  have same : has = has' := funext₂ fun a b => propext (same a b)
  same ▸ h

theorem or {sites' : Sites} {has' : α → β → Prop} (h : ReadAt sites whole part has)
    (h' : ReadAt sites' whole part has') :
    ReadAt (fun c => sites c ∨ sites' c) whole part fun a b => has a b ∨ has' a b where
  through := by
    rintro c (site | site) levels
    · obtain ⟨below, f, reads, kept⟩ := h.through site levels
      exact ⟨below, f, reads, fun read => .inl (kept read)⟩
    · obtain ⟨below, f, reads, kept⟩ := h'.through site levels
      exact ⟨below, f, reads, fun read => .inr (kept read)⟩
  found := by
    rintro levels j a b read (holds | holds)
    · obtain ⟨c, v, below, site, stands, read⟩ := h.found read holds
      exact ⟨c, v, below, .inl site, stands, read⟩
    · obtain ⟨c, v, below, site, stands, read⟩ := h'.found read holds
      exact ⟨c, v, below, .inr site, stands, read⟩

theorem within {outer : Sites} {has' : α → γ → Prop} (h : ReadAt outer whole mid has')
    (inner : ReadAt sites mid part holds) :
    ReadAt (outer.within sites) whole part fun a b => ∃ m, has' a m ∧ holds m b where
  through := by
    rintro _ ⟨around, inside, site, site', rfl⟩ levels
    obtain ⟨middle, f, reads, kept⟩ := h.through site levels
    obtain ⟨below, g, reads', kept'⟩ := inner.through site' middle
    refine ⟨below, fun b => (g b).bind f, fun v => ?_, fun read => ?_⟩
    · rw [Function.comp_apply, reads, reads', Option.bind_assoc]
    · obtain ⟨m, first, second⟩ := Option.bind_eq_some_iff.mp read
      exact ⟨m, kept second, kept' first⟩
  found := by
    rintro levels j a b read ⟨m, holds, holds'⟩
    obtain ⟨around, _, middle, site, rfl, read'⟩ := h.found read holds
    obtain ⟨inside, v, below, site', rfl, read''⟩ := inner.found read' holds'
    exact ⟨_, v, below, ⟨around, inside, site, site', rfl⟩, rfl, read''⟩

theorem items : ReadAt ItemSite (asList part) part fun bs b => b ∈ bs where
  through := by
    rintro _ ⟨before, after⟩ levels
    cases levels with
    | zero => exact through_none fun v => by simp [asList]
    | succ levels =>
      have parts (v : Json) : asList part (levels + 1) (.array (before ++ v :: after)) =
          (before.mapM (part levels)).bind fun first => (part levels v).bind fun b =>
            (after.mapM (part levels)).bind fun last => some (first ++ b :: last) := by
        simp [asList, Option.bind_assoc]
      obtain ⟨f, reads, kept⟩ : ∃ f,
          (∀ v, asList part (levels + 1) (.array (before ++ v :: after)) =
            (part levels v).bind f) ∧ ∀ {bs b}, f b = some bs → ∃ v, part levels v = some b ∧
            asList part (levels + 1) (.array (before ++ v :: after)) = some bs :=
        exists_bind (fun refused => by simp [parts, refused])
          fun first second => by simp only [parts, first, second]
      refine ⟨levels, f, reads, fun read => ?_⟩
      obtain ⟨v, here, read'⟩ := kept read
      simp only [parts, here, Option.bind_eq_some_iff, Option.some.injEq] at read'
      obtain ⟨first, -, _, rfl, last, -, rfl⟩ := read'
      exact List.mem_append_right first List.mem_cons_self
  found := by
    intro levels j bs b read member
    cases levels with
    | zero => simp [asList] at read
    | succ levels =>
      cases j with
      | array items =>
        obtain ⟨before, v, after, rfl, read'⟩ := exists_of_mapM read member
        exact ⟨_, v, levels, ⟨before, after⟩, rfl, read'⟩
      | _ => simp [asList] at read

/-- A value that may be missing is read where it is there. No site is of a value that is nothing
but a null. -/
theorem option (h : ReadAt sites whole part has)
    (some_value : ∀ {c}, sites c → ∀ v, c v ≠ .scalar .null) :
    ReadAt sites (asOption whole) part fun o b => ∃ a, o = some a ∧ has a b where
  through := by
    intro c site levels
    obtain ⟨below, f, reads, kept⟩ := h.through site levels
    refine ⟨below, fun b => (f b).map some, fun v => ?_, fun read => ?_⟩
    · have present : asOption whole levels (c v) = (whole levels (c v)).map some := by
        unfold asOption
        split
        next null => exact absurd null (some_value site v)
        next => rfl
      rw [present, reads, Option.map_bind]
      rfl
    · obtain ⟨a, read', same⟩ := Option.map_eq_some_iff.mp read
      exact ⟨a, same.symm, kept read'⟩
  found := by
    rintro levels j _ b read ⟨a, rfl, holds⟩
    unfold asOption at read
    split at read
    next => cases read
    next =>
      obtain ⟨a', read', same⟩ := Option.map_eq_some_iff.mp read
      cases same
      exact h.found read' holds

/-- A record is read from what is read at one of its members. -/
theorem member {names : List String} {name : String} {read : Nat → Record → Option α}
    (inner : ReadAt sites mid part holds) (nodup : names.Nodup) (known : name ∈ names)
    (zero : ∀ j, whole 0 j = none)
    (succ : ∀ levels j, whole (levels + 1) j = (record? names j).bind (read levels))
    (takes : ∀ levels, Takes name (mid levels) holds has (read levels)) :
    ReadAt (Sites.within (MemberSite names name) sites) whole part has where
  through := by
    rintro _ ⟨around, inside, site, site', rfl⟩ levels
    cases levels with
    | zero => exact through_none fun v => zero _
    | succ levels =>
      obtain ⟨below, f, reads, kept⟩ := inner.through site' levels
      rcases record?_member site nodup known with refused | ⟨before, after, absent, members⟩
      · exact through_none fun v => by rw [Function.comp_apply, succ, refused, Option.bind_none]
      · obtain ⟨g, reads', kept'⟩ : ∃ g, (∀ v, read levels ⟨before ++ (name, v) :: after⟩ =
            (mid levels v).bind g) ∧ ∀ {a m}, g m = some a → ∃ v, mid levels v = some m ∧
              read levels ⟨before ++ (name, v) :: after⟩ = some a :=
          exists_bind ((takes levels).fails absent) ((takes levels).same absent)
        refine ⟨below, fun b => (f b).bind g, fun v => ?_, fun read => ?_⟩
        · rw [Function.comp_apply, succ, members, Option.bind_some, reads', reads,
            Option.bind_assoc]
        · obtain ⟨m, first, second⟩ := Option.bind_eq_some_iff.mp read
          obtain ⟨v, here, read'⟩ := kept' second
          exact ((takes levels).has_iff read').mpr ⟨v, m, lookup_member absent, here, kept first⟩
  found := by
    intro levels j a b reads holds
    cases levels with
    | zero => simp [zero] at reads
    | succ levels =>
      rw [succ, Option.bind_eq_some_iff] at reads
      obtain ⟨r, members, reads⟩ := reads
      obtain ⟨w, m, stands, reads', holds'⟩ := ((takes levels).has_iff reads).mp holds
      obtain ⟨around, site, rfl⟩ := exists_member members stands
      obtain ⟨inside, v, below, site', rfl, reads''⟩ := inner.found reads' holds'
      exact ⟨around ∘ inside, v, below, ⟨around, inside, site, site', rfl⟩, rfl, reads''⟩

end ReadAt

end

end LedgerIndex.Json
