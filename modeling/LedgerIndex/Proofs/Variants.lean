import LedgerIndex.Proofs.Course
import LedgerIndex.Proofs.Formats
import LedgerIndex.Proofs.Sites

/-!
# Variants

The tag of an output state tells of which variant it is, and an output state below a lock has a
tag of its own. The sites of the tags lead from a body to its outputs and then from lock to lock.
What stands at such a site stands for a variant, or the whole body is refused; and every output
state that is read has its tag at one of them. Below a lock the position of a variant is as good a
tag as its name.
-/
namespace LedgerIndex
open Json

/-- A value that is taken apart at a member is looked through there too. -/
theorem Json.isSound_member {names : List String} {name : String} {c : Json → Json}
    (site : MemberSite names name c) (levels : Nat) :
    ∃ rest : Bool, ∀ v, isSound (levels + 1) (c v) = (rest && isSound levels v) := by
  cases site with
  | named before after key spelled =>
    refine ⟨before.all (fun m => (text? m.1).isSome && isSound levels m.2) &&
      after.all fun m => (text? m.1).isSome && isSound levels m.2, fun v => ?_⟩
    rw [isSound, List.all_append, List.all_cons, spelled, Option.isSome_some, Bool.true_and,
      Bool.and_assoc, Bool.and_comm (isSound levels v)]
  | inOrder before after =>
    refine ⟨before.all (isSound levels) && after.all (isSound levels), fun v => ?_⟩
    rw [isSound, List.all_append, List.all_cons, Bool.and_assoc, Bool.and_comm (isSound levels v)]

namespace Tagged

variable {names : List String} {name : String} {c around : Json → Json} {j v tag : Json}
  {t : Tagged}

def isTag (m : Bytes × Json) : Bool :=
  text? m.1 == some "type"

theorem ofJson?_object (members : List (Bytes × Json)) : ofJson? (.object members) =
    match members.filter isTag with
    | [tag] => some ⟨tag.2, .object (members.filter (not ∘ isTag))⟩
    | _ => none := by
  have parts : members.partition (fun m => text? m.1 == some "type") =
      (members.filter isTag, members.filter (not ∘ isTag)) := List.partition_eq_filter_filter
  rw [ofJson?, parts]
  cases members.filter isTag with
  | nil => rfl
  | cons tag tags => cases tags <;> rfl

theorem ofJson?_tag (site : MemberSite ["type"] "type" c) : (∀ v, ofJson? (c v) = none) ∨
    ∃ body, ∀ v, ofJson? (c v) = some ⟨v, body⟩ := by
  cases site with
  | named before after key spelled =>
    have tagged (v : Json) : isTag (key, v) = true := by simp [isTag, spelled]
    have untagged (v : Json) : ¬(not ∘ isTag) (key, v) = true := by simp [tagged v]
    simp only [ofJson?_object, List.filter_append, List.filter_cons_of_pos (tagged _),
      List.filter_cons_of_neg (untagged _)]
    match before.filter isTag, after.filter isTag with
    | [], [] => exact .inr ⟨_, fun v => rfl⟩
    | [], _ :: _ => exact .inl fun v => rfl
    | [_], _ => exact .inl fun v => rfl
    | _ :: _ :: _, _ => exact .inl fun v => rfl
  | inOrder before after position =>
    cases before with
    | nil => exact .inr ⟨.array after, fun v => rfl⟩
    | cons => simp at position

theorem tag_of_ofJson? (site : MemberSite ["type"] "type" c) (read : ofJson? (c v) = some t) :
    t.tag = v := by
  rcases ofJson?_tag site with refused | ⟨body, tagged⟩
  · rw [refused] at read
    cases read
  · rw [tagged] at read
    cases read
    rfl

/-- Whatever stands at another member, the tag is the same, and so is what is around the member
in the rest. -/
theorem ofJson?_member (site : MemberSite ("type" :: names) name c) (other : name ≠ "type") :
    (∀ v, ofJson? (c v) = none) ∨ ∃ tag around, MemberSite names name around ∧
      ∀ v, ofJson? (c v) = some ⟨tag, around v⟩ := by
  cases site with
  | named before after key spelled =>
    have untagged (v : Json) : ¬isTag (key, v) = true := by simp [isTag, spelled, other]
    have kept (v : Json) : (not ∘ isTag) (key, v) = true := by simp [untagged v]
    simp only [ofJson?_object, List.filter_append, List.filter_cons_of_neg (untagged _),
      List.filter_cons_of_pos (kept _)]
    match before.filter isTag ++ after.filter isTag with
    | [] => exact .inl fun v => rfl
    | [tag] => exact .inr ⟨tag.2, _, .named _ _ key spelled, fun v => rfl⟩
    | _ :: _ :: _ => exact .inl fun v => rfl
  | inOrder before after position =>
    cases before with
    | nil => exact absurd (Option.some.inj position).symm other
    | cons tag before => exact .inr ⟨tag, _, .inOrder before after position, fun v => rfl⟩

theorem exists_tag (read : ofJson? j = some t) :
    ∃ c, MemberSite ["type"] "type" c ∧ j = c t.tag := by
  cases j with
  | scalar s => cases read
  | array items =>
    cases items with
    | nil => cases read
    | cons tag items =>
      cases read
      exact ⟨_, .inOrder [] items rfl, rfl⟩
  | object members =>
    rw [ofJson?_object] at read
    split at read
    next tag tags =>
      cases read
      have tagged : tag ∈ members.filter isTag := tags ▸ List.mem_singleton_self tag
      obtain ⟨member, spelled⟩ := List.mem_filter.mp tagged
      obtain ⟨before, after, rfl⟩ := List.append_of_mem member
      exact ⟨_, .named before after tag.1 (by simpa [isTag] using spelled), rfl⟩
    next => cases read

theorem exists_member (read : ofJson? j = some ⟨tag, around v⟩)
    (site : MemberSite names name around) : ∃ c, MemberSite ("type" :: names) name c ∧ j = c v ∧
      ∀ w, ∃ outside, MemberSite ["type"] "type" outside ∧ c w = outside tag := by
  cases j with
  | scalar s => cases read
  | array items =>
    cases items with
    | nil => cases read
    | cons first items =>
      rw [ofJson?, Option.some.injEq, Tagged.mk.injEq] at read
      obtain ⟨rfl, rest⟩ := read
      cases site with
      | named => cases rest
      | inOrder before after position =>
        obtain rfl := Json.array.inj rest
        exact ⟨_, .inOrder (first :: before) after position, rfl,
          fun w => ⟨_, .inOrder [] _ rfl, rfl⟩⟩
  | object members =>
    rw [ofJson?_object] at read
    split at read
    next first tags =>
      rw [Option.some.injEq, Tagged.mk.injEq] at read
      obtain ⟨rfl, rest⟩ := read
      cases site with
      | inOrder => cases rest
      | named before' after' key spelled =>
        have rest := Json.object.inj rest
        have kept : (key, v) ∈ members.filter (not ∘ isTag) := by
          rw [rest]
          exact List.mem_append_right _ List.mem_cons_self
        obtain ⟨member, untagged⟩ := List.mem_filter.mp kept
        obtain ⟨before, after, rfl⟩ := List.append_of_mem member
        refine ⟨_, .named before after key spelled, rfl, fun w => ?_⟩
        -- The tag is another member, so it stays where it is.
        have tagged : first ∈ (before ++ (key, v) :: after).filter isTag :=
          tags ▸ List.mem_singleton_self first
        obtain ⟨member, isTag_first⟩ := List.mem_filter.mp tagged
        have there : first ∈ before ++ (key, w) :: after := by
          rcases List.mem_append.mp member with member | member
          · exact List.mem_append_left _ member
          · rcases List.mem_cons.mp member with rfl | member
            · simp [isTag_first] at untagged
            · exact List.mem_append_right _ (List.mem_cons_of_mem _ member)
        obtain ⟨before', after', parts⟩ := List.append_of_mem there
        exact ⟨_, .named before' after' first.1 (by simpa [isTag] using isTag_first),
          congrArg Json.object parts⟩
    next => cases read

end Tagged

namespace OutputState

def name : OutputState → String
  | .transfer _ _ => "transfer"
  | .lockedTransfer _ _ => "locked_transfer"
  | .nftTransfer _ _ _ => "nft_transfer"
  | .nftMint _ _ => "nft_mint"
  | .fungibleMint _ => "fungible_mint"

theorem name_mem_names (state : OutputState) : state.name ∈ names := by
  cases state <;> simp [name, names]

def layer : Nat → OutputState → Option OutputState
  | 0, state => some state
  | depth + 1, .lockedTransfer _ inner => inner.layer depth
  | _ + 1, _ => none

/-- A tag stands for the variant that it names. Below another output state the position of the
variant stands for it too. -/
inductive IsTag (nested : Bool) (variant : String) : Json → Prop
  | name {raw : Bytes} : variant ∈ names → text? raw = some variant →
    IsTag nested variant (.scalar (.string raw))
  | position {i : Nat} {n : Number} : nested = true → names[i]? = some variant →
    n.toInt? = some (i : Int) → IsTag nested variant (.scalar (.number n))

def innerSite (nested : Bool) : Sites := fun c =>
  MemberSite ["type", "locktime", "inner"] "inner" c ∧ ∃ tag, IsTag nested "locked_transfer" tag ∧
    ∀ v, ∃ outside, MemberSite ["type"] "type" outside ∧ c v = outside tag

def tagSite : Bool → Nat → Sites
  | _, 0 => MemberSite ["type"] "type"
  | nested, depth + 1 => (innerSite nested).within (tagSite true depth)

variable {nested : Bool} {variant : String} {levels i : Nat} {j t : Json} {c : Json → Json}

theorem tagIndex?_eq_some_iff : tagIndex? names nested t = some i ↔
    ∃ variant, names[i]? = some variant ∧ IsTag nested variant t := by
  constructor
  · intro position
    match t with
    | .scalar (.string raw) =>
      obtain ⟨variant, spelled, position⟩ := Option.bind_eq_some_iff.mp position
      obtain ⟨within, here, -⟩ := List.idxOf?_eq_some_iff.mp position
      exact ⟨variant, List.getElem?_eq_some_iff.mpr ⟨within, here⟩,
        .name (here ▸ List.getElem_mem within) spelled⟩
    | .scalar (.number n) =>
      rw [tagIndex?, Option.ite_none_right_eq_some] at position
      obtain ⟨below, position⟩ := position
      obtain ⟨k, whole, position⟩ := Option.bind_eq_some_iff.mp position
      rw [Option.ite_none_right_eq_some, Option.some.injEq] at position
      obtain ⟨⟨natural, within⟩, rfl⟩ := position
      have within : k.toNat < names.length := by omega
      refine ⟨_, List.getElem?_eq_getElem within,
        .position below (List.getElem?_eq_getElem within) ?_⟩
      rw [whole, Int.toNat_of_nonneg natural]
  · rintro ⟨variant, position, tag⟩
    have once {k : Nat} (same : names[k]? = some variant) : k = i := by
      have within : k < names.length := (List.getElem?_eq_some_iff.mp same).1
      exact (List.getElem?_inj within (by decide)).mp (same.trans position.symm)
    obtain ⟨within, here⟩ := List.getElem?_eq_some_iff.mp position
    cases tag with
    | name known spelled =>
      refine Option.bind_eq_some_iff.mpr ⟨variant, spelled, List.idxOf?_eq_some_iff.mpr
        ⟨within, here, fun k before same => ?_⟩⟩
      have first := once (List.getElem?_eq_some_iff.mpr ⟨by omega, same⟩)
      omega
    | @position k n below stands whole =>
      obtain rfl := once stands
      rw [tagIndex?, if_pos below, whole, Option.bind_some, if_pos (by omega)]
      rfl

theorem isTag_ofString (known : variant ∈ names) : IsTag nested variant (ofString variant) :=
  .name known (text?_ofText variant)

theorem isTag_ofNat (there : names[i]? = some variant) : IsTag true variant (ofNat i) :=
  .position rfl there (Number.toInt?_ofNat i)

theorem not_isTag_ofNat : ¬IsTag false variant (ofNat i) := by
  intro tag
  cases tag with
  | position nested => cases nested

theorem IsTag.mem_names (tag : IsTag nested variant t) : variant ∈ names := by
  cases tag with
  | name known => exact known
  | position _ there => exact List.mem_of_getElem? there

theorem IsTag.isSound (tag : IsTag nested variant t) : isSound levels t = true := by
  cases tag with
  | name known spelled => rw [Json.isSound, spelled, Option.isSome_some]
  | @position i n below position whole =>
    have within : i < 5 := (List.getElem?_eq_some_iff.mp position).1
    rw [Json.isSound]
    exact Number.isFinite_of_toInt? whole (by omega)

/-- Reads the rest of an output state whose variant has the given position. -/
def decodeVariant : Nat → Decoder OutputState
  | 0, levels, body => do
    let r ← record? ["amount", "owners"] body
    return .transfer (← r.get "amount" (asUInt64 levels))
      (← r.get "owners" (Owners.decode levels))
  | 1, levels, body => do
    let r ← record? ["locktime", "inner"] body
    return .lockedTransfer (← r.get "locktime" (asUInt64 levels))
      (← r.get "inner" (decodeChecked true levels))
  | 2, levels, body => do
    let r ← record? ["group_id", "payload", "owners"] body
    return .nftTransfer (← r.get "group_id" (asUInt32 levels))
      (← r.getD "payload" [] (asBytes levels)) (← r.get "owners" (Owners.decode levels))
  | 3, levels, body => do
    let r ← record? ["group_id", "owners"] body
    return .nftMint (← r.get "group_id" (asUInt32 levels))
      (← r.get "owners" (Owners.decode levels))
  | _, levels, body => do
    let r ← record? ["owners"] body
    return .fungibleMint (← r.get "owners" (Owners.decode levels))

theorem decodeChecked_succ (nested : Bool) (levels : Nat) (j : Json) :
    decodeChecked nested (levels + 1) j = (Tagged.ofJson? j).bind fun t =>
      (tagIndex? names nested t.tag).bind fun i => decodeVariant i levels t.body := by
  rw [decodeChecked]
  refine bind_congr fun t => bind_congr fun i => ?_
  rcases i with _ | _ | _ | _ | i <;> rfl

theorem name_of_decodeVariant {body : Json} {state : OutputState} (within : i < names.length)
    (read : decodeVariant i levels body = some state) : names[i]? = some state.name := by
  have within : i < 5 := within
  match i with
  | 0 | 1 | 3 =>
    simp only [decodeVariant, Option.bind_eq_bind, Option.bind_eq_some_iff, Option.pure_def,
      Option.some.injEq] at read
    obtain ⟨_, -, _, -, _, -, rfl⟩ := read
    rfl
  | 2 =>
    simp only [decodeVariant, Option.bind_eq_bind, Option.bind_eq_some_iff, Option.pure_def,
      Option.some.injEq] at read
    obtain ⟨_, -, _, -, _, -, _, -, rfl⟩ := read
    rfl
  | 4 =>
    simp only [decodeVariant, Option.bind_eq_bind, Option.bind_eq_some_iff, Option.pure_def,
      Option.some.injEq] at read
    obtain ⟨_, -, _, -, rfl⟩ := read
    rfl

def decodeBelow (nested : Bool) : Decoder OutputState := fun levels j =>
  if isSound levels j then decodeChecked nested levels j else none

def readTag (nested : Bool) : Decoder Nat := fun _ t =>
  tagIndex? names nested t

theorem decodeBelow_zero (nested : Bool) (j : Json) : decodeBelow nested 0 j = none := by
  rw [decodeBelow, decodeChecked, ite_self]

theorem readAt_tag (nested : Bool) : ReadAt (MemberSite ["type"] "type") (decodeBelow nested)
    (readTag nested) fun state i => names[i]? = some state.name where
  through := by
    intro c site levels
    cases levels with
    | zero => exact ReadAt.through_none fun t => decodeBelow_zero nested _
    | succ levels =>
      obtain ⟨rest, sound⟩ := isSound_member site levels
      rcases Tagged.ofJson?_tag site with refused | ⟨body, tagged⟩
      · exact ReadAt.through_none fun t => by simp [decodeBelow, decodeChecked_succ, refused]
      -- A tag that is read at all passes the check, so the check depends on the rest alone.
      have read {t : Json} {i : Nat} (tag : readTag nested 0 t = some i) :
          decodeBelow nested (levels + 1) (c t) =
            if rest then decodeVariant i levels body else none := by
        have tag : tagIndex? names nested t = some i := tag
        obtain ⟨_, -, isTag⟩ := tagIndex?_eq_some_iff.mp tag
        simp only [decodeBelow, decodeChecked_succ, tagged, sound, isTag.isSound, Bool.and_true,
          Option.bind_some, tag]
      obtain ⟨f, reads, kept⟩ : ∃ f, (∀ t, decodeBelow nested (levels + 1) (c t) =
          (readTag nested 0 t).bind f) ∧ ∀ {state i}, f i = some state →
            ∃ t, readTag nested 0 t = some i ∧
              decodeBelow nested (levels + 1) (c t) = some state := by
        refine exists_bind (fun {t} unknown => ?_) fun first second => by
          rw [read first, read second]
        have unknown : tagIndex? names nested t = none := unknown
        simp [decodeBelow, decodeChecked_succ, tagged, unknown]
      refine ⟨0, f, reads, fun through => ?_⟩
      obtain ⟨t, tag, read'⟩ := kept through
      rw [read tag, Option.ite_none_right_eq_some] at read'
      obtain ⟨_, stands, -⟩ := tagIndex?_eq_some_iff.mp tag
      exact name_of_decodeVariant (List.getElem?_eq_some_iff.mp stands).1 read'.2
  found := by
    intro levels j state i read position
    cases levels with
    | zero => simp [decodeBelow_zero] at read
    | succ levels =>
      rw [decodeBelow, Option.ite_none_right_eq_some, decodeChecked_succ] at read
      obtain ⟨-, read'⟩ := read
      obtain ⟨t, tagged, read''⟩ := Option.bind_eq_some_iff.mp read'
      obtain ⟨k, tag, rest⟩ := Option.bind_eq_some_iff.mp read''
      obtain ⟨c, site, rfl⟩ := Tagged.exists_tag tagged
      obtain ⟨variant, stands, -⟩ := tagIndex?_eq_some_iff.mp tag
      obtain ⟨within, -⟩ := List.getElem?_eq_some_iff.mp stands
      have same := (name_of_decodeVariant within rest).trans position.symm
      obtain rfl := (List.getElem?_inj within (by decide)).mp same
      exact ⟨c, t.tag, 0, site, rfl, tag⟩

/-- Whatever the inner output state is, the tag of the locked one is the same. -/
theorem ofJson?_inner (site : innerSite nested c) : (∀ v, Tagged.ofJson? (c v) = none) ∨
    ∃ tag around, MemberSite ["locktime", "inner"] "inner" around ∧
      tagIndex? names nested tag = some 1 ∧ ∀ v, Tagged.ofJson? (c v) = some ⟨tag, around v⟩ := by
  obtain ⟨member, locked, isTag, outside⟩ := site
  rcases Tagged.ofJson?_member member (by decide) with refused | ⟨tag, around, member', tagged⟩
  · exact .inl refused
  · obtain ⟨_, site, there⟩ := outside locked
    have same : tag = locked := Tagged.tag_of_ofJson? site (there ▸ tagged locked)
    exact .inr ⟨tag, around, member', tagIndex?_eq_some_iff.mpr ⟨_, rfl, same ▸ isTag⟩, tagged⟩

theorem readAt_inner (nested : Bool) : ReadAt (innerSite nested) (decodeBelow nested)
    (decodeBelow true) fun state inner => state.layer 1 = some inner where
  through := by
    intro c site levels
    cases levels with
    | zero => exact ReadAt.through_none fun v => decodeBelow_zero nested _
    | succ levels =>
      obtain ⟨rest, sound⟩ := isSound_member site.1 levels
      rcases ofJson?_inner site with refused | ⟨tag, around, member, position, tagged⟩
      · exact ReadAt.through_none fun v => by simp [decodeBelow, decodeChecked_succ, refused]
      rcases record?_member member (by decide) (by decide) with
        refused | ⟨before, after, absent, members⟩
      · exact ReadAt.through_none fun v => by
          simp [decodeBelow, decodeChecked_succ, tagged, position, decodeVariant, refused]
      have read (v : Json) : decodeBelow nested (levels + 1) (c v) = if rest then
          (((before ++ after).lookup "locktime").bind (asUInt64 levels)).bind fun locktime =>
            (decodeBelow true levels v).map (lockedTransfer locktime) else none := by
        simp only [decodeBelow, sound, Bool.and_eq_true, decodeChecked_succ, tagged, position,
          decodeVariant, members, Record.get, Option.bind_eq_bind, Option.bind_some,
          lookup_member absent, lookup_others (show "locktime" ≠ "inner" by decide)]
        cases rest <;> cases isSound levels v <;> simp [Option.map_eq_bind]
      refine ⟨levels, fun inner => if rest then
        (((before ++ after).lookup "locktime").bind (asUInt64 levels)).map fun locktime =>
          lockedTransfer locktime inner else none, fun v => ?_, ?_⟩
      · rw [read]
        cases rest <;> cases decodeBelow true levels v <;> simp [Option.map_eq_bind]
      · intro state inner through
        rw [Option.ite_none_right_eq_some, Option.map_eq_some_iff] at through
        obtain ⟨-, _, -, rfl⟩ := through
        rfl
  found := by
    intro levels j state inner read holds
    cases levels with
    | zero => simp [decodeBelow_zero] at read
    | succ levels =>
      rw [decodeBelow, Option.ite_none_right_eq_some, decodeChecked_succ] at read
      obtain ⟨checked, read'⟩ := read
      obtain ⟨⟨tag, body⟩, tagged, read''⟩ := Option.bind_eq_some_iff.mp read'
      obtain ⟨k, position, rest⟩ := Option.bind_eq_some_iff.mp read''
      obtain ⟨variant, stands, isTag⟩ := tagIndex?_eq_some_iff.mp position
      obtain ⟨within, -⟩ := List.getElem?_eq_some_iff.mp stands
      cases state with
      | lockedTransfer locktime inner' =>
        cases holds
        have same : names[k]? = names[1]? := name_of_decodeVariant within rest
        obtain rfl := (List.getElem?_inj within (by decide)).mp same
        cases stands
        simp only [decodeVariant, Option.bind_eq_bind, Option.bind_eq_some_iff, Option.pure_def,
          Option.some.injEq, lockedTransfer.injEq] at rest
        obtain ⟨r, members, _, -, _, inside, -, rfl⟩ := rest
        obtain ⟨v, there, inside⟩ := Option.bind_eq_some_iff.mp inside
        obtain ⟨around, member, rfl⟩ := exists_member members there
        obtain ⟨c, member', rfl, outside⟩ := Tagged.exists_member tagged member
        obtain ⟨rest, sound⟩ := isSound_member member' levels
        rw [sound, Bool.and_eq_true] at checked
        exact ⟨c, v, levels, ⟨member', tag, isTag, outside⟩, rfl, by
          rw [decodeBelow, if_pos checked.2, inside]⟩
      | _ => cases holds

/-- The output state below so many locks is of the variant with the given position. -/
def ShowsAt (depth : Nat) (state : OutputState) (i : Nat) : Prop :=
  ∃ inner, state.layer depth = some inner ∧ names[i]? = some inner.name

theorem readAt_tagSite (nested : Bool) (depth : Nat) :
    ReadAt (tagSite nested depth) (decodeBelow nested) (readTag (nested || 0 < depth))
      (ShowsAt depth) := by
  induction depth generalizing nested with
  | zero =>
    rw [decide_eq_false (Nat.lt_irrefl 0), Bool.or_false]
    exact (readAt_tag nested).congr fun state i => by simp [ShowsAt, layer]
  | succ depth ih =>
    rw [decide_eq_true depth.succ_pos, Bool.or_true]
    refine ((readAt_inner nested).within (ih true)).congr fun state i => ?_
    cases state <;> simp [ShowsAt, layer]

theorem readAt_decode (depth : Nat) : ReadAt (tagSite false depth) OutputState.decode
    (readTag (0 < depth)) (ShowsAt depth) :=
  Bool.false_or (decide (0 < depth)) ▸ readAt_tagSite false depth

end OutputState

def Transaction.outputs (t : Transaction) : List Output :=
  t.base.outputs ++ t.extraOutputs.elim [] (·.outputs)

def Block.states (b : Block) : List OutputState :=
  (b.transactions.flatMap Transaction.outputs).map (·.state)

def Output.tagSite (depth : Nat) : Sites :=
  Sites.within (MemberSite ["asset_id", "out"] "out") (OutputState.tagSite false depth)

def BaseTransaction.tagSite (depth : Nat) : Sites :=
  Sites.within (MemberSite ["id", "network_id", "memo", "ins", "outs"] "outs")
    (Sites.within ItemSite (Output.tagSite depth))

def ExtraOutputs.tagSite (depth : Nat) : Sites :=
  Sites.within (MemberSite ["chain_id", "outs", "stake"] "outs")
    (Sites.within ItemSite (Output.tagSite depth))

def Transaction.tagSite (depth : Nat) : Sites := fun c =>
  let names := ["tx_type", "base", "unsigned_bytes", "raw_bytes", "credentials", "extra_ins",
    "extra_outs", "extra_fee", "genesis"]
  Sites.within (MemberSite names "base") (BaseTransaction.tagSite depth) c ∨
    Sites.within (MemberSite names "extra_outs") (ExtraOutputs.tagSite depth) c

def Block.tagSite (depth : Nat) : Sites :=
  Sites.within (MemberSite ["txs"] "txs") (Sites.within ItemSite (Transaction.tagSite depth))

def PlacedOutput.tagSite (depth : Nat) : Sites :=
  Sites.within (MemberSite ["tx_id", "output_index", "asset_id", "out"] "out")
    (OutputState.tagSite false depth)

section

open OutputState

variable (depth : Nat)

theorem Output.readAt_tagSite : ReadAt (Output.tagSite depth) Output.decode (readTag (0 < depth))
    fun o => o.state.ShowsAt depth := by
  refine (readAt_decode depth).member (by decide) (by decide) (fun j => rfl) (fun levels j => rfl)
    fun levels => ?_
  refine .next (.get (by decide)) fun asset => ?_
  refine .here fun state => ?_
  exact .done fun i => Iff.rfl

theorem PlacedOutput.readAt_tagSite : ReadAt (PlacedOutput.tagSite depth) PlacedOutput.decode
    (readTag (0 < depth)) fun o => o.state.ShowsAt depth := by
  refine (readAt_decode depth).member (by decide) (by decide) (fun j => rfl) (fun levels j => rfl)
    fun levels => ?_
  refine .next (.get (by decide)) fun transaction => ?_
  refine .next (.get (by decide)) fun index => ?_
  refine .next (.get (by decide)) fun asset => ?_
  refine .here fun state => ?_
  exact .done fun i => Iff.rfl

theorem BaseTransaction.readAt_tagSite : ReadAt (BaseTransaction.tagSite depth)
    BaseTransaction.decode (readTag (0 < depth)) fun t i =>
      ∃ o ∈ t.outputs, o.state.ShowsAt depth i := by
  refine (ReadAt.items.within (Output.readAt_tagSite depth)).member (by decide) (by decide)
    (fun j => rfl) (fun levels j => rfl) fun levels => ?_
  refine .next (.get (by decide)) fun id => ?_
  refine .next (.get (by decide)) fun network => ?_
  refine .next (.getD (by decide)) fun memo => ?_
  refine .next (.getD (by decide)) fun inputs => ?_
  refine .hereD (fun i => by simp) fun outputs => ?_
  exact .done fun i => Iff.rfl

theorem ExtraOutputs.readAt_tagSite : ReadAt (ExtraOutputs.tagSite depth) ExtraOutputs.decode
    (readTag (0 < depth)) fun e i => ∃ o ∈ e.outputs, o.state.ShowsAt depth i := by
  refine (ReadAt.items.within (Output.readAt_tagSite depth)).member (by decide) (by decide)
    (fun j => rfl) (fun levels j => rfl) fun levels => ?_
  refine .next (.get (by decide)) fun chain => ?_
  refine .here fun outputs => ?_
  refine .next (.getD (by decide)) fun stake => ?_
  exact .done fun i => Iff.rfl

theorem Transaction.readAt_tagSite : ReadAt (Transaction.tagSite depth) Transaction.decode
    (readTag (0 < depth)) fun t i => ∃ o ∈ t.outputs, o.state.ShowsAt depth i := by
  have either (t : Transaction) (i : Nat) : (∃ o ∈ t.base.outputs, o.state.ShowsAt depth i) ∨
      (∃ e, t.extraOutputs = some e ∧ ∃ o ∈ e.outputs, o.state.ShowsAt depth i) ↔
        ∃ o ∈ t.outputs, o.state.ShowsAt depth i := by
    cases extra : t.extraOutputs <;> simp [Transaction.outputs, extra, or_and_right, exists_or]
  refine (ReadAt.or ?_ ?_).congr either
  · refine (BaseTransaction.readAt_tagSite depth).member (by decide) (by decide) (fun j => rfl)
      (fun levels j => rfl) fun levels => ?_
    refine .next (.get (by decide)) fun kind => ?_
    refine .here fun base => ?_
    refine .next (.getD (by decide)) fun unsigned => ?_
    refine .next (.getD (by decide)) fun raw => ?_
    refine .next (.getD (by decide)) fun credentials => ?_
    refine .next (.getD (by decide)) fun extraInputs => ?_
    refine .next (.getD (by decide)) fun extraOutputs => ?_
    refine .next (.getD (by decide)) fun extraFee => ?_
    refine .next (.getD (by decide)) fun genesis => ?_
    exact .done fun i => Iff.rfl
  · have some_value {c : Json → Json} (site : ExtraOutputs.tagSite depth c) (v : Json) :
        c v ≠ .scalar .null := by
      obtain ⟨_, _, site | site, -, rfl⟩ := site <;> simp
    refine ((ExtraOutputs.readAt_tagSite depth).option some_value).member (by decide) (by decide)
      (fun j => rfl) (fun levels j => rfl) fun levels => ?_
    refine .next (.get (by decide)) fun kind => ?_
    refine .next (.get (by decide)) fun base => ?_
    refine .next (.getD (by decide)) fun unsigned => ?_
    refine .next (.getD (by decide)) fun raw => ?_
    refine .next (.getD (by decide)) fun credentials => ?_
    refine .next (.getD (by decide)) fun extraInputs => ?_
    refine .hereD (fun i => by simp) fun extraOutputs => ?_
    refine .next (.getD (by decide)) fun extraFee => ?_
    refine .next (.getD (by decide)) fun genesis => ?_
    exact .done fun i => Iff.rfl

theorem Block.readAt_tagSite : ReadAt (Block.tagSite depth) Block.decode (readTag (0 < depth))
    fun b i => ∃ state ∈ b.states, state.ShowsAt depth i := by
  have within (b : Block) (i : Nat) :
      (∃ t ∈ b.transactions, ∃ o ∈ t.outputs, o.state.ShowsAt depth i) ↔
        ∃ state ∈ b.states, state.ShowsAt depth i := by
    simp only [Block.states, List.mem_map, List.mem_flatMap]
    constructor
    · rintro ⟨t, among, o, member, shows⟩
      exact ⟨_, ⟨o, ⟨t, among, member⟩, rfl⟩, shows⟩
    · rintro ⟨_, ⟨o, ⟨t, among, member⟩, rfl⟩, shows⟩
      exact ⟨t, among, o, member, shows⟩
  refine ReadAt.congr ?_ within
  refine (ReadAt.items.within (Transaction.readAt_tagSite depth)).member (by decide) (by decide)
    (fun j => rfl) (fun levels j => rfl) fun levels => ?_
  refine .hereD (fun i => by simp) fun transactions => ?_
  exact .done fun i => Iff.rfl

end

/-- The tags in a tree tell of which variants the output states are that it holds. -/
structure KnownByTags (site : Nat → Sites) (j : Json) (states : List OutputState) : Prop where
  /-- Every tag stands for the variant of an output state as deep. -/
  tags : ∀ {depth : Nat} {c : Json → Json} {t : Json}, site depth c → j = c t →
    ∃ state ∈ states, ∃ inner, state.layer depth = some inner ∧
      OutputState.IsTag (0 < depth) inner.name t
  /-- Every output state has such a tag. -/
  tagged : ∀ {depth : Nat} {state inner : OutputState}, state ∈ states →
    state.layer depth = some inner →
    ∃ c t, site depth c ∧ j = c t ∧ OutputState.IsTag (0 < depth) inner.name t

namespace OutputState

variable {α : Type} {site : Nat → Sites} {whole : Decoder α} {states : α → List OutputState}
  {depth levels : Nat} {c : Json → Json} {j t t' : Json} {variant : String} {a : α}

/-- The whole is refused where a tag stands for no variant. -/
theorem refused_of_tag {has : α → Nat → Prop}
    (h : ReadAt (site depth) whole (readTag (0 < depth)) has) (stands : site depth c)
    (other : ∀ variant, ¬IsTag (0 < depth) variant t) : whole levels (c t) = none := by
  obtain ⟨below, f, reads, -⟩ := h.through stands levels
  have unknown : readTag (0 < depth) below t = none := by
    refine Option.eq_none_iff_forall_ne_some.mpr fun i position => ?_
    obtain ⟨variant, -, tag⟩ := tagIndex?_eq_some_iff.mp position
    exact other variant tag
  rw [reads, unknown, Option.bind_none]

theorem exchange_tag {has : α → Nat → Prop}
    (h : ReadAt (site depth) whole (readTag (0 < depth)) has) (stands : site depth c)
    (tag : IsTag (0 < depth) variant t) (tag' : IsTag (0 < depth) variant t') :
    whole levels (c t) = whole levels (c t') := by
  obtain ⟨below, f, reads, -⟩ := h.through stands levels
  obtain ⟨i, position⟩ := List.mem_iff_getElem?.mp tag.mem_names
  have first : readTag (0 < depth) below t = some i :=
    tagIndex?_eq_some_iff.mpr ⟨variant, position, tag⟩
  have second : readTag (0 < depth) below t' = some i :=
    tagIndex?_eq_some_iff.mpr ⟨variant, position, tag'⟩
  rw [reads, reads, first, second]

theorem knownByTags (h : ∀ depth, ReadAt (site depth) whole (readTag (0 < depth))
      fun a i => ∃ state ∈ states a, state.ShowsAt depth i)
    (read : whole levels j = some a) : KnownByTags site j (states a) where
  tags := by
    rintro depth c t stands rfl
    obtain ⟨below, f, reads, kept⟩ := (h depth).through stands levels
    rw [reads, Option.bind_eq_some_iff] at read
    obtain ⟨i, position, through⟩ := read
    obtain ⟨variant, named, tag⟩ := tagIndex?_eq_some_iff.mp position
    obtain ⟨state, member, inner, there, same⟩ := kept through
    obtain rfl := Option.some.inj (named.symm.trans same)
    exact ⟨state, member, inner, there, tag⟩
  tagged := by
    intro depth state inner member there
    obtain ⟨i, named⟩ := List.mem_iff_getElem?.mp (name_mem_names inner)
    obtain ⟨c, t, below, stands, here, position⟩ :=
      (h depth).found read ⟨state, member, inner, there, named⟩
    obtain ⟨variant, named', tag⟩ := tagIndex?_eq_some_iff.mp position
    obtain rfl := Option.some.inj (named'.symm.trans named)
    exact ⟨c, t, stands, here, tag⟩

end OutputState

open OutputState

/-- Only the named variants are accepted, in a block and in a reported output. The tags of a body
tell which variants it holds, at every depth; any other tag makes the body fail to decode, wherever
it stands; and nothing but the variant matters of a tag. In the output itself the tag is a name.
Below a lock it may be a position, which goes through as the name of the variant does. -/
theorem Payload.known_byTags (body : Bytes) :
    (∀ b, decode? .block body = some (.block b) →
      ∃ j, Json.read body = some j ∧ KnownByTags Block.tagSite j b.states) ∧
    (∀ o, Rewards.decodeOutput body = .ok o →
      ∃ j, Json.read body = some j ∧ KnownByTags PlacedOutput.tagSite j [o.state]) ∧
    (∀ depth c t, Json.read body = some (c t) → (∀ variant, ¬IsTag (0 < depth) variant t) →
      (Block.tagSite depth c → decode? .block body = none ∧
        ∀ (s : Settings) (d : Delivery) (ix : Indexer), s.topics.route d.topic = some .block →
          d.body = body → (Handling.start s d ix).2 = .settled (.error (.decoding .payload))) ∧
      (PlacedOutput.tagSite depth c →
        Rewards.decodeOutput body = .error (.decoding .payload))) ∧
    ∀ depth c t body' t' variant, Json.read body = some (c t) → Json.read body' = some (c t') →
      IsTag (0 < depth) variant t → IsTag (0 < depth) variant t' →
      (Block.tagSite depth c → decode? .block body = decode? .block body') ∧
      (PlacedOutput.tagSite depth c →
        Rewards.decodeOutput body = Rewards.decodeOutput body') := by
  have placed (depth : Nat) : ReadAt (PlacedOutput.tagSite depth) PlacedOutput.decode
      (readTag (0 < depth)) fun o i => ∃ state ∈ [o.state], state.ShowsAt depth i :=
    (PlacedOutput.readAt_tagSite depth).congr fun o i => by simp
  refine ⟨?block, ?output, ?refused, ?exchanged⟩
  case block =>
    intro b read
    obtain ⟨b', read, same⟩ := Option.map_eq_some_iff.mp read
    cases same
    obtain ⟨j, parsed, read⟩ := Option.bind_eq_some_iff.mp read
    exact ⟨j, parsed, knownByTags Block.readAt_tagSite read⟩
  case output =>
    intro o read
    rw [Rewards.decodeOutput] at read
    split at read
    next o' decoded =>
      cases read
      obtain ⟨j, parsed, read⟩ := Option.bind_eq_some_iff.mp decoded
      have known := knownByTags placed read
      exact ⟨j, parsed, known⟩
    next => cases read
  case refused =>
    intro depth c t parsed other
    constructor
    · intro stands
      have refused : decode? .block body = none := by
        rw [decode?, decodeBody, parsed, Option.bind_some,
          refused_of_tag (Block.readAt_tagSite depth) stands other]
        rfl
      refine ⟨refused, fun s d ix routed same => ?_⟩
      have no_task : d.task? s = none := by
        rw [Delivery.task?, routed, Option.bind_some, same, refused]
        rfl
      rw [(Handling.start_of_no_task no_task ix).2.2, routed]
      rfl
    · intro stands
      rw [Rewards.decodeOutput, decodeBody, parsed, Option.bind_some,
        refused_of_tag (placed depth) stands other]
  case exchanged =>
    intro depth c t body' t' variant parsed parsed' tag tag'
    constructor
    · intro stands
      rw [decode?, decode?, decodeBody, decodeBody, parsed, parsed', Option.bind_some,
        Option.bind_some, exchange_tag (Block.readAt_tagSite depth) stands tag tag']
    · intro stands
      rw [Rewards.decodeOutput, Rewards.decodeOutput, decodeBody, decodeBody, parsed, parsed',
        Option.bind_some, Option.bind_some, exchange_tag (placed depth) stands tag tag']

def Json.transferTagged (tag : Json) : Json :=
  ofMembers [("type", tag), ("amount", ofNat 10), ("owners", Owners.encode ⟨0, 1, []⟩)]

def Json.lockedTagged (tag : Json) : Json :=
  ofMembers [("type", ofString "locked_transfer"), ("locktime", ofNat 99),
    ("inner", transferTagged tag)]

def PlacedOutput.around (out : Json) : Json :=
  ofMembers [("tx_id", Fixed.encode (default : Identifier)), ("output_index", ofNat 0),
    ("asset_id", Fixed.encode (default : Identifier)), ("out", out)]

section

variable {tag : Json}

theorem Json.MemberSite.written {names : List String} {name : String}
    (before after : List (String × Json)) :
    MemberSite names name fun v => ofMembers (before ++ (name, v) :: after) := by
  have site : MemberSite names name fun v => .object
      (before.map (fun m => (ofText m.1, m.2)) ++ (ofText name, v) ::
        after.map fun m => (ofText m.1, m.2)) :=
    .named _ _ _ (text?_ofText name)
  simpa only [ofMembers, List.map_append, List.map_cons] using site

theorem Json.Plain.transferTagged (h : tag.Plain) : (transferTagged tag).Plain :=
  .record (by simp [h, Plain.natural, Owners.codec.plain])

theorem Json.Plain.lockedTagged (h : tag.Plain) : (lockedTagged tag).Plain :=
  .record (by simp [h.transferTagged, Plain.natural, Plain.text])

theorem PlacedOutput.read_around {out : Json} (h : out.Plain) :
    Json.read (around out).write = some (around out) :=
  read_write (.record (by simp [h, Plain.natural, Plain.text, Fixed.encode]))

theorem PlacedOutput.tagSite_transferTagged : PlacedOutput.tagSite 0 (around ∘ transferTagged) :=
  ⟨_, _, .written [_, _, _] [], .written [] _, rfl⟩

theorem PlacedOutput.tagSite_lockedTagged : PlacedOutput.tagSite 1 (around ∘ lockedTagged) := by
  have lock : IsTag false "locked_transfer" (ofString "locked_transfer") :=
    isTag_ofString (by decide)
  have inner : innerSite false fun v => ofMembers ([("type", ofString "locked_transfer"),
      ("locktime", ofNat 99)] ++ ("inner", v) :: []) :=
    ⟨.written _ _, _, lock, fun v => ⟨_, .written [] [_, _], rfl⟩⟩
  exact ⟨_, _, .written [_, _, _] [], ⟨_, transferTagged, inner, .written [] _, rfl⟩, rfl⟩

/-- A locked output state in a block has its tags there. In a reported output the tag below the
lock may be the position, if there is such a variant. -/
theorem Payload.known_byTags_locked :
    (∃ (b : Block) (c : Json → Json) (t : Json), decode? .block b.encode.write = some (.block b) ∧
      Json.read b.encode.write = some (c t) ∧ Block.tagSite 1 c ∧ IsTag true "transfer" t) ∧
    Rewards.decodeOutput (PlacedOutput.around (lockedTagged (ofNat 7))).write =
      .error (.decoding .payload) ∧
    Rewards.decodeOutput (PlacedOutput.around (lockedTagged (ofNat 0))).write =
      Rewards.decodeOutput (PlacedOutput.around (lockedTagged (ofString "transfer"))).write := by
  refine ⟨?_, ?_, ?_⟩
  · let state : OutputState := .lockedTransfer 99 (.transfer 10 ⟨0, 1, []⟩)
    let t : Transaction := {
      kind := .base
      base := ⟨default, 1, [], [], [⟨default, state⟩]⟩
      unsigned := []
      raw := []
      credentials := []
      extraInputs := none
      extraOutputs := none
      extraFee := 0
      genesis := false }
    let b : Block := ⟨[t]⟩
    have nests : b.encode.depth ≤ maxLevels := by decide +kernel
    have decoded : decode? .block b.encode.write = some (.block b) :=
      congrArg (block <$> ·) (Block.codec.decodeBody_write nests)
    obtain ⟨j, parsed, known⟩ := (known_byTags _).1 b decoded
    have held : state ∈ b.states := List.mem_singleton_self state
    have locked : state.layer 1 = some (.transfer 10 ⟨0, 1, []⟩) := rfl
    obtain ⟨c, tag, site, rfl, isTag⟩ := known.tagged held locked
    exact ⟨b, c, tag, decoded, parsed, site, isTag⟩
  · have unknown (variant : String) : ¬IsTag true variant (ofNat 7) := by
      intro tag
      obtain ⟨i, there⟩ := List.mem_iff_getElem?.mp tag.mem_names
      have position := tagIndex?_eq_some_iff.mpr ⟨variant, there, tag⟩
      rw [show tagIndex? names true (ofNat 7) = none by decide] at position
      cases position
    have parsed := PlacedOutput.read_around (Plain.natural (n := 7) (by decide)).lockedTagged
    exact ((known_byTags _).2.2.1 1 (PlacedOutput.around ∘ lockedTagged) _ parsed unknown).2
      PlacedOutput.tagSite_lockedTagged
  · have parsed := PlacedOutput.read_around (Plain.natural (n := 0) (by decide)).lockedTagged
    have parsed' := PlacedOutput.read_around (Plain.text "transfer").lockedTagged
    exact ((known_byTags _).2.2.2 1 (PlacedOutput.around ∘ lockedTagged) _ _ _ _ parsed parsed'
      (isTag_ofNat rfl) (isTag_ofString (by decide))).2 PlacedOutput.tagSite_lockedTagged

/-- Only in the output itself does a tag have to be a name. A lock lets through a position, which
is refused without the lock. -/
theorem Payload.unnamed_inner : ∃ o : PlacedOutput,
    Rewards.decodeOutput (PlacedOutput.around (lockedTagged (ofNat 0))).write = .ok o ∧
    Json.read (PlacedOutput.around (lockedTagged (ofNat 0))).write =
      some (PlacedOutput.around (lockedTagged (ofNat 0))) ∧
    PlacedOutput.tagSite 1 (PlacedOutput.around ∘ lockedTagged) ∧
    (∀ variant, ¬IsTag false variant (ofNat 0)) ∧
    Rewards.decodeOutput (PlacedOutput.around (transferTagged (ofNat 0))).write =
      .error (.decoding .payload) := by
  let o : PlacedOutput := ⟨default, 0, default, .lockedTransfer 99 (.transfer 10 ⟨0, 1, []⟩)⟩
  have zero : (ofNat 0).Plain := .natural (by decide)
  have parsed := PlacedOutput.read_around zero.lockedTagged
  have nests : o.encode.depth ≤ maxLevels := by decide +kernel
  have accepted : PlacedOutput.decode maxLevels (PlacedOutput.around (lockedTagged (ofNat 0))) =
      some o := by
    rw [← PlacedOutput.codec.decode_encode o nests]
    exact exchange_tag (c := PlacedOutput.around ∘ lockedTagged) (PlacedOutput.readAt_tagSite 1)
      PlacedOutput.tagSite_lockedTagged (isTag_ofNat rfl) (isTag_ofString (by decide))
  have refused : PlacedOutput.decode maxLevels (PlacedOutput.around (transferTagged (ofNat 0))) =
      none :=
    refused_of_tag (c := PlacedOutput.around ∘ transferTagged) (PlacedOutput.readAt_tagSite 0)
      PlacedOutput.tagSite_transferTagged fun variant => not_isTag_ofNat
  refine ⟨o, ?_, parsed, PlacedOutput.tagSite_lockedTagged,
    fun variant => not_isTag_ofNat, ?_⟩
  · rw [Rewards.decodeOutput, decodeBody, parsed, Option.bind_some, accepted]
  · rw [Rewards.decodeOutput, decodeBody, PlacedOutput.read_around zero.transferTagged,
      Option.bind_some, refused]

end

end LedgerIndex
