import LedgerIndex.Node
import LedgerIndex.Proofs.Acceptance
import LedgerIndex.Proofs.Hexadecimal
import Mathlib.Data.List.Forall2

/-!
# Replies

A reply of the node is taken whole or not at all. Its outputs are taken exactly if it reports no
error, has a result in hexadecimal, and every text of it spells an output; they are all of them,
in their order. Any other reply is refused for the first thing that is wrong with it.
-/
namespace LedgerIndex

section

variable {ε α β : Type} {f : α → Except ε β}

theorem mapM_eq_ok_iff {xs : List α} {ys : List β} :
    xs.mapM f = .ok ys ↔ List.Forall₂ (fun x y => f x = .ok y) xs ys := by
  induction xs generalizing ys with
  | nil => cases ys <;> simp [pure, Except.pure]
  | cons x xs ih =>
    rw [List.mapM_cons]
    cases ys with
    | nil => cases f x <;> cases xs.mapM f <;> simp [bind, Except.bind, pure, Except.pure]
    | cons y ys =>
      rw [List.forall₂_cons, ← ih]
      cases f x <;> cases xs.mapM f <;> simp [bind, Except.bind, pure, Except.pure]

theorem mapM_eq_error_iff {xs : List α} {e : ε} : xs.mapM f = .error e ↔
    ∃ before x after, xs = before ++ x :: after ∧ (∀ y ∈ before, ∃ b, f y = .ok b) ∧
      f x = .error e := by
  induction xs with
  | nil => simp [pure, Except.pure]
  | cons x xs ih =>
    rw [List.mapM_cons]
    cases first : f x with
    | error e' =>
      -- Nothing before a refused item can be refused, so it is the first.
      constructor
      · rintro ⟨⟩
        exact ⟨[], x, xs, rfl, by simp, first⟩
      · rintro ⟨_ | ⟨y, before⟩, z, after, parts, read, bad⟩
        · obtain ⟨rfl, rfl⟩ := List.cons.inj parts
          obtain rfl := Except.error.inj (first.symm.trans bad)
          rfl
        · obtain ⟨rfl, rfl⟩ := List.cons.inj parts
          obtain ⟨b, ok⟩ := read x List.mem_cons_self
          rw [first] at ok
          cases ok
    | ok b =>
      have rest : (do
          let b ← Except.ok b
          let bs ← xs.mapM f
          pure (b :: bs)) = .error e ↔ xs.mapM f = .error e := by
        cases xs.mapM f <;> simp [bind, Except.bind, pure, Except.pure]
      rw [rest, ih]
      constructor
      · rintro ⟨before, z, after, rfl, read, bad⟩
        exact ⟨x :: before, z, after, rfl, List.forall_mem_cons.mpr ⟨⟨b, first⟩, read⟩, bad⟩
      · rintro ⟨_ | ⟨y, before⟩, z, after, parts, read, bad⟩
        · obtain ⟨rfl, rfl⟩ := List.cons.inj parts
          rw [first] at bad
          cases bad
        · obtain ⟨rfl, rfl⟩ := List.cons.inj parts
          exact ⟨before, z, after, rfl, (List.forall_mem_cons.mp read).2, bad⟩

end

namespace Node

structure Reply.Lists (reply : Reply) (outputs : List Bytes) : Prop where
  sound : reply.error = none
  spelled : ∃ payout, reply.result = some payout ∧ payout.encoding = "hex" ∧
    List.Forall₂ Text.Checked.Spells payout.outputs outputs

inductive Reply.Refuses (reply : Reply) : Failure → Prop
  | problem {e : Problem} : reply.error = some e →
    Refuses reply (.node (.refused method e.code e.text))
  | noResult : reply.error = none → reply.result = none → Refuses reply (.node (.noResult method))
  | encoding {payout : Payout} : reply.error = none → reply.result = some payout →
    payout.encoding ≠ "hex" → Refuses reply (.node (.encoding payout.encoding))
  | output {payout : Payout} {before after : List String} {text : String}
    {fault : Text.Checked.Fault} : reply.error = none → reply.result = some payout →
    payout.encoding = "hex" → payout.outputs = before ++ text :: after →
    (∀ t ∈ before, ∃ output, Text.Checked.Spells t output) →
    Text.Checked.decodeHex text = .error fault → Refuses reply (.decoding (.checked fault))

namespace Reply

variable {reply : Reply} {payout : Payout}

theorem outputs_of_error {e : Problem} (reports : reply.error = some e) :
    reply.outputs = .error (.node (.refused method e.code e.text)) := by
  simp only [outputs, reports]

theorem outputs_of_result (sound : reply.error = none) (none : reply.result = none) :
    reply.outputs = .error (.node (.noResult method)) := by
  simp only [outputs, sound, none]

theorem outputs_of_encoding (sound : reply.error = none) (has : reply.result = some payout)
    (other : payout.encoding ≠ "hex") :
    reply.outputs = .error (.node (.encoding payout.encoding)) := by
  simp only [outputs, sound, has, if_neg other]

theorem outputs_of_hex (sound : reply.error = none) (has : reply.result = some payout)
    (hex : payout.encoding = "hex") : reply.outputs = payout.outputs.mapM fun text =>
      (Text.Checked.decodeHex text).mapError fun fault => .decoding (.checked fault) := by
  simp only [outputs, sound, has, if_pos hex]

theorem outputs_eq_ok_of_hex (sound : reply.error = none) (has : reply.result = some payout)
    (hex : payout.encoding = "hex") {outputs : List Bytes} :
    reply.outputs = .ok outputs ↔ List.Forall₂ Text.Checked.Spells payout.outputs outputs := by
  rw [outputs_of_hex sound has hex, mapM_eq_ok_iff]
  simp only [Settings.mapError_eq_ok_iff, Text.Checked.decodeHex_eq_ok_iff]

theorem outputs_eq_error_of_hex (sound : reply.error = none) (has : reply.result = some payout)
    (hex : payout.encoding = "hex") {f : Failure} : reply.outputs = .error f ↔
      ∃ before text after, payout.outputs = before ++ text :: after ∧
        (∀ t ∈ before, ∃ output, Text.Checked.Spells t output) ∧
        ∃ fault, Text.Checked.decodeHex text = .error fault ∧ .decoding (.checked fault) = f := by
  rw [outputs_of_hex sound has hex, mapM_eq_error_iff]
  simp only [Settings.mapError_eq_ok_iff, Settings.mapError_eq_error_iff,
    Text.Checked.decodeHex_eq_ok_iff]

/-- A reply reports an error, or has no result, or one in some encoding. -/
theorem forms (reply : Reply) : (∃ e, reply.error = some e) ∨
    reply.error = none ∧ (reply.result = none ∨ ∃ payout, reply.result = some payout) := by
  obtain ⟨result, error⟩ := reply
  cases error <;> cases result <;> simp

theorem outputs_eq_ok_iff {outputs : List Bytes} :
    reply.outputs = .ok outputs ↔ reply.Lists outputs := by
  constructor
  · intro taken
    obtain ⟨e, reports⟩ | ⟨sound, none | ⟨payout, has⟩⟩ := reply.forms
    · simp [outputs_of_error reports] at taken
    · simp [outputs_of_result sound none] at taken
    · by_cases hex : payout.encoding = "hex"
      · exact ⟨sound, payout, has, hex, (outputs_eq_ok_of_hex sound has hex).mp taken⟩
      · simp [outputs_of_encoding sound has hex] at taken
  · rintro ⟨sound, payout, has, hex, spelled⟩
    exact (outputs_eq_ok_of_hex sound has hex).mpr spelled

theorem outputs_eq_error_iff {f : Failure} : reply.outputs = .error f ↔ reply.Refuses f := by
  constructor
  · intro refused
    obtain ⟨e, reports⟩ | ⟨sound, none | ⟨payout, has⟩⟩ := reply.forms
    · obtain rfl := Except.error.inj ((outputs_of_error reports).symm.trans refused)
      exact .problem reports
    · obtain rfl := Except.error.inj ((outputs_of_result sound none).symm.trans refused)
      exact .noResult sound none
    · by_cases hex : payout.encoding = "hex"
      · obtain ⟨before, text, after, parts, spelled, fault, bad, rfl⟩ :=
          (outputs_eq_error_of_hex sound has hex).mp refused
        exact .output sound has hex parts spelled bad
      · obtain rfl := Except.error.inj ((outputs_of_encoding sound has hex).symm.trans refused)
        exact .encoding sound has hex
  · intro refuses
    cases refuses with
    | problem reports => exact outputs_of_error reports
    | noResult sound none => exact outputs_of_result sound none
    | encoding sound has other => exact outputs_of_encoding sound has other
    | output sound has hex parts spelled bad =>
      exact (outputs_eq_error_of_hex sound has hex).mpr ⟨_, _, _, parts, spelled, _, bad, rfl⟩

end Reply

theorem interpret_decoded {body : Bytes} {reply : Reply}
    (read : Json.decodeBody Reply.decode body = some reply) :
    interpret 200 body = reply.outputs := by
  have whole : bodiless.contains 200 = false := rfl
  rw [interpret, if_neg (by decide), whole]
  simp [read]

/-- The codec reads a text exactly as the payload it spells, and so whatever it has written. A body
that can be read gives the outputs it lists, all of them and in order; if it lists none, the call
fails for the first thing that is wrong with it. -/
theorem outputs_whole :
    (∀ text payload, Text.Checked.decodeHex text = .ok payload ↔
      Text.Checked.Spells text payload) ∧
    (∀ payload, Text.Checked.decodeHex (Text.Checked.encodeHex payload) = .ok payload) ∧
    ∀ body reply, Json.decodeBody Reply.decode body = some reply →
      (∀ outputs, interpret 200 body = .ok outputs ↔ reply.Lists outputs) ∧
      ∀ f, interpret 200 body = .error f ↔ reply.Refuses f := by
  refine ⟨fun _ _ => Text.Checked.decodeHex_eq_ok_iff, Text.Checked.decodeHex_encodeHex,
    fun body reply read => ?_⟩
  rw [interpret_decoded read]
  exact ⟨fun _ => Reply.outputs_eq_ok_iff, fun _ => Reply.outputs_eq_error_iff⟩

def Payout.body (texts : List String) : Bytes :=
  Json.write <| Json.ofMembers [("result", Json.ofMembers
    [("utxos", .array (texts.map Json.ofString)), ("encoding", Json.ofString "hex")])]

/-- Two outputs are taken, one of them empty and the other with a capital digit. With a text between
them that is too short for a checksum none is. -/
theorem outputs_whole_two :
    interpret 200 (Payout.body ["0x017785459A", "0x7852b855"]) = .ok [[1], []] ∧
    interpret 200 (Payout.body ["0x017785459A", "0x00", "0x7852b855"]) =
      .error (.decoding (.checked (.tooShort 1))) := by
  obtain ⟨-, -, taken⟩ := outputs_whole
  have one : Text.Checked.Spells "0x017785459A" [1] := ⟨"017785459A", rfl, by decide +kernel⟩
  have empty : Text.Checked.Spells "0x7852b855" [] := ⟨"7852b855", rfl, by decide +kernel⟩
  constructor
  · refine ((taken _ ⟨some ⟨"", ["0x017785459A", "0x7852b855"], "hex"⟩, none⟩
      (by decide +kernel)).1 _).mpr ⟨rfl, _, rfl, rfl, ?_⟩
    exact .cons one (.cons empty .nil)
  · refine ((taken _ ⟨some ⟨"", ["0x017785459A", "0x00", "0x7852b855"], "hex"⟩, none⟩
      (by decide +kernel)).2 _).mpr ?_
    have parts : ["0x017785459A", "0x00", "0x7852b855"] =
        ["0x017785459A"] ++ "0x00" :: ["0x7852b855"] := rfl
    refine .output rfl rfl rfl parts ?_ (by decide +kernel)
    exact fun text only => (List.mem_singleton.mp only) ▸ ⟨[1], one⟩

end Node
end LedgerIndex
