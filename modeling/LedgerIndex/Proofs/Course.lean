import LedgerIndex.Proofs.Attempt

/-!
# The course of a handling

A course is any sequence of steps of one handling, each with its own answer, and of
other work in between: other sessions are committed, rewards are flagged, a stop is
requested. Each step of the handling itself leaves a stride: what it needed, what it
was granted, the result of an attempt it judged, and the store before and after.
-/
namespace LedgerIndex

/-- What can become of a store. -/
inductive Store.Evolves (a : Store) : Store → Prop
  | refl : a.Evolves a
  | commit {b : Store} (s : Session) : a.Evolves b → a.Evolves (b.commit s)
  | markReward {b : Store} (id : String) : a.Evolves b → a.Evolves (b.markReward id)
  | insertBlock {b : Store} (id parent : String) (kind : BlockKind) :
    a.Evolves b → a.Evolves (b.insertBlock id parent kind)
  | insertReward {b : Store} (id block : String) (transaction : Identifier)
    (created : Timestamp) : a.Evolves b → a.Evolves (b.insertReward id block transaction created)

theorem Table.contains_put {κ ν : Type} [Ord κ] [Std.TransOrd κ] (t : Table κ ν) (k k' : κ)
    (new : ν) (conflict : ν → ν) (h : t.contains k' = true) :
    (t.put k new conflict).contains k' = true := by
  unfold put
  rw [Std.ExtTreeMap.contains_alter]
  split
  · split <;> rfl
  · exact h

theorem Change.contains_output_apply (t : Tables) (c : Change) (id : Identifier)
    (h : t.outputs.contains id = true) : (c.apply t).outputs.contains id = true := by
  cases c with
  | output row overwrite => exact Table.contains_put _ _ _ _ _ h
  | _ => exact h

theorem Change.contains_output_applyAll (t : Tables) (cs : List Change) (id : Identifier)
    (h : t.outputs.contains id = true) : (applyAll t cs).outputs.contains id = true := by
  induction cs generalizing t with
  | nil => exact h
  | cons c cs ih => exact ih _ (contains_output_apply t c id h)

theorem Store.Evolves.keepsOutputs {a b : Store} (h : a.Evolves b) : a.KeepsOutputs b := by
  induction h with
  | refl => exact .refl a
  | commit s _ ih => exact ih.trans fun id hi => Change.contains_output_applyAll _ _ id hi
  | markReward _ _ ih => exact ih
  | insertBlock _ _ _ _ ih => exact ih
  | insertReward _ _ _ _ _ ih => exact ih

theorem Store.Evolves.trans {a b c : Store} (hab : a.Evolves b) (hbc : b.Evolves c) :
    a.Evolves c := by
  induction hbc with
  | refl => exact hab
  | commit s _ ih => exact .commit s ih
  | markReward id _ ih => exact .markReward id ih
  | insertBlock id parent kind _ ih => exact .insertBlock id parent kind ih
  | insertReward id block transaction created _ ih =>
    exact .insertReward id block transaction created ih

structure Indexer.Elsewhere (a b : Indexer) : Prop where
  store : a.store.Evolves b.store
  stopping : a.stopping = true → b.stopping = true

structure Stride where
  need : Need
  granted : Bool
  verdict : Option (Except Failure Unit)
  stopping : Bool
  before : Store
  after : Store

namespace Stride

def opens (x : Stride) : Bool :=
  decide (x.need = .reply .begin)

def commits (x : Stride) : Bool :=
  decide (x.need = .reply .commit) && x.granted

/-- A step that calls nothing neither commits nor opens a session. -/
theorem quiet_of_idle (x : Stride) (idle : ∀ c, x.need ≠ .reply c) :
    x.commits = false ∧ x.opens = false := by
  simp [commits, opens, idle]

end Stride

namespace Handling

def verdict? : Handling → Option (Except Failure Unit)
  | .attempting _ _ run => run.result?
  | _ => none

def stride (s : Settings) (answer : Answer) (ix : Indexer) (h : Handling) : Stride where
  need := h.need
  granted := answer.isGranted
  verdict := h.verdict?
  stopping := ix.stopping
  before := ix.store
  after := (h.step s answer ix).1.store

def startStride (s : Settings) (d : Delivery) (ix : Indexer) : Stride where
  need := .nothing
  granted := true
  verdict := none
  stopping := ix.stopping
  before := ix.store
  after := (Handling.start s d ix).1.store

/-- The strides of a message so far, the state of the indexer, and how far the handling
of the message has come. -/
inductive Course (s : Settings) (d : Delivery) : List Stride → Indexer → Handling → Prop
  | start (ix : Indexer) :
    Course s d [startStride s d ix] (Handling.start s d ix).1 (Handling.start s d ix).2
  | own (answer : Answer) {strides : List Stride} {ix : Indexer} {h : Handling} :
    Course s d strides ix h →
    Course s d (strides ++ [h.stride s answer ix]) (h.step s answer ix).1 (h.step s answer ix).2
  | elsewhere {strides : List Stride} {ix ix' : Indexer} {h : Handling} :
    ix.Elsewhere ix' → Course s d strides ix h → Course s d strides ix' h

end Handling

namespace Indexer

@[simp] theorem store_note (ix : Indexer) (e : Event) : (ix.note e).store = ix.store := rfl

@[simp] theorem store_noteAll (ix : Indexer) (es : List Event) :
    (ix.noteAll es).store = ix.store := rfl

@[simp] theorem store_count (ix : Indexer) (source : String) (what : Tally) :
    (ix.count source what).store = ix.store := rfl

@[simp] theorem store_signal (ix : Indexer) : ix.signal.store = ix.store := rfl

@[simp] theorem stopping_note (ix : Indexer) (e : Event) :
    (ix.note e).stopping = ix.stopping := rfl

@[simp] theorem stopping_noteAll (ix : Indexer) (es : List Event) :
    (ix.noteAll es).stopping = ix.stopping := rfl

@[simp] theorem stopping_count (ix : Indexer) (source : String) (what : Tally) :
    (ix.count source what).stopping = ix.stopping := rfl

@[simp] theorem stopping_signal (ix : Indexer) : ix.signal.stopping = ix.stopping := rfl

end Indexer

/-- The task that a message amounts to, if its topic is served and its body decodes. -/
def Delivery.task? (s : Settings) (d : Delivery) : Option Task :=
  (s.topics.route d.topic).bind fun kind =>
    (Payload.decode? kind d.body).map fun payload =>
      ⟨⟨d.message, d.topic, kind⟩, payload.content d.body, d.time, payload⟩

namespace Handling

variable {s : Settings} {d : Delivery} {ix : Indexer} {task : Task}

theorem settle_eq (subject : Subject) (result : Except Failure Unit) (ix : Indexer) :
    (settle subject result ix).1.store = ix.store ∧
      (settle subject result ix).1.stopping = ix.stopping ∧
      (settle subject result ix).2 = .settled result := by
  cases result with
  | ok a =>
    by_cases h : subject.kind = .block <;> simp [settle, h]
  | error f =>
    by_cases h : f.isContention <;> simp [settle, h]

/-- A failed attempt is tried again if it was contended and no stop is requested, and ends
the handling otherwise. -/
theorem retreat_cases (s : Settings) (task : Task) (retries : Nat) (f : Failure)
    (ix : Indexer) :
    (retreat s task retries f ix).1.store = ix.store ∧
      (retreat s task retries f ix).1.stopping = ix.stopping ∧
      ((f.isContention = true ∧ ix.stopping = false ∧
          ∃ delay, (retreat s task retries f ix).2 = .pausing task (retries + 1) delay) ∨
        ((f.isContention = true → ix.stopping = true) ∧
          (retreat s task retries f ix).2 = .settled (.error f))) := by
  unfold retreat
  split
  next h => exact ⟨rfl, rfl, .inl ⟨h.1, by simpa using h.2, _, rfl⟩⟩
  next h =>
    have settled := settle_eq task.subject (.error f) ix
    exact ⟨settled.1, settled.2.1, .inr ⟨by simpa using h, settled.2.2⟩⟩

theorem start_of_task (ht : d.task? s = some task) (ix : Indexer) :
    Handling.start s d ix = (ix, .attempting task 0 (.start (task.attempt s))) := by
  simp only [Delivery.task?, Option.bind_eq_some_iff, Option.map_eq_some_iff] at ht
  obtain ⟨kind, hk, payload, hp, rfl⟩ := ht
  simp [Handling.start, hk, hp]

/-- A message without a task is done with at once: its topic is not served, or its body
does not decode. -/
theorem start_of_no_task (ht : d.task? s = none) (ix : Indexer) :
    (Handling.start s d ix).1.store = ix.store ∧
      (Handling.start s d ix).1.stopping = ix.stopping ∧
      (Handling.start s d ix).2 =
        .settled (if (s.topics.route d.topic).isSome then .error (.decoding .payload)
          else .ok ()) := by
  cases hk : s.topics.route d.topic with
  | none => simp [Handling.start, hk]
  | some kind =>
    have hp : Payload.decode? kind d.body = none := by
      simpa [Delivery.task?, hk] using ht
    simpa [Handling.start, hk, hp] using
      settle_eq ⟨d.message, d.topic, kind⟩ (.error (.decoding .payload)) ix

theorem store_start (s : Settings) (d : Delivery) (ix : Indexer) :
    (Handling.start s d ix).1.store = ix.store := by
  cases ht : d.task? s with
  | none => exact (start_of_no_task ht ix).1
  | some task => rw [start_of_task ht]

end Handling

def Settings.plain : Settings where
  database := ""
  node := none
  network := 1
  chain := "C"
  asset := default
  part := "local"
  topicBase := "atomic"
  pollInterval := 1
  batchSize := 100
  workers := 10
  backoff := default
  rewards := default
  writeBudget := 180000
  lockBudget := 5000
  overwrite := false
  strict := false

def Delivery.emptyBlock (partition : String) : Delivery where
  handle := ""
  topic := Settings.plain.topics.main
  partition := partition
  message := ""
  body := Bytes.ofString "\x7b\"txs\":[]\x7d"
  time := default

theorem Delivery.route_emptyBlock (partition : String) :
    Settings.plain.topics.route (emptyBlock partition).topic = some .block := by
  simp [Topics.route, emptyBlock]

end LedgerIndex
