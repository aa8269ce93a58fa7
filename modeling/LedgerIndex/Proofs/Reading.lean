import LedgerIndex.Proofs.Scalars

/-!
# Reading what is written

The compact text of a value is scanned into the tokens it was written from: a number ends where
the next token begins, since no two scalars stand side by side. The tokens of a value are read as
that value wherever a value is expected. So a value is read back from its text.
-/
namespace LedgerIndex.Json

/-- Built from texts, natural numbers of 64 bits, truth values and nulls. -/
inductive Plain : Json → Prop
  | null : Plain (.scalar .null)
  | bool (b : Bool) : Plain (.ofBool b)
  | natural {n : Nat} : n < 2 ^ 64 → Plain (.ofNat n)
  | text (s : String) : Plain (.ofString s)
  | array {items : List Json} : (∀ v ∈ items, Plain v) → Plain (.array items)
  | record {members : List (String × Json)} : (∀ m ∈ members, Plain m.2) →
    Plain (.ofMembers members)

namespace Scan

variable {found : List Token} {done rest : Bytes}

theorem run_of_step {scan after : Scan} {b : UInt8} {tokens : List Token}
    (h : scan.step b = some (tokens, after)) :
    scan.run found (b :: rest) = after.run (tokens.reverse ++ found) rest := by
  rw [run, h]

theorem run_escaped {b : UInt8} {form : Bytes} (h : Escaped b form) :
    (string done).run found (form ++ rest) = (string (form.reverse ++ done)).run found rest := by
  cases h with
  | @letter mark stands =>
    have known : mark = 34 ∨ mark = 92 ∨ mark = 47 ∨ mark = 98 ∨ mark = 102 ∨ mark = 110 ∨
        mark = 114 ∨ mark = 116 := by
      unfold letter? at stands
      grind
    have other : mark ≠ 117 := by
      rintro rfl
      cases stands
    have ends : (escape (92 :: done)).step mark = some ([], .string (mark :: 92 :: done)) := by
      rw [step, if_neg other, if_pos known]
    exact (run_of_step rfl).trans (run_of_step ends)
  | @code high low stands control =>
    have digits : (∃ d, Text.Hex.digit? high = some d) ∧ ∃ d, Text.Hex.digit? low = some d := by
      unfold code? at stands
      cases first : Text.Hex.digit? high with
      | none => simp [first] at stands
      | some d =>
        cases second : Text.Hex.digit? low with
        | none => simp [first, second] at stands
        | some e => exact ⟨⟨d, rfl⟩, e, rfl⟩
    obtain ⟨⟨d, first⟩, e, second⟩ := digits
    have third : (code (48 :: 48 :: 117 :: 92 :: done) 1).step high =
        some ([], .code (high :: 48 :: 48 :: 117 :: 92 :: done) 0) := by
      simp only [step, first]
    have fourth : (code (high :: 48 :: 48 :: 117 :: 92 :: done) 0).step low =
        some ([], .string (low :: high :: 48 :: 48 :: 117 :: 92 :: done)) := by
      simp only [step, second]
    calc (string done).run found (92 :: 117 :: 48 :: 48 :: high :: low :: rest)
      _ = (code (48 :: 48 :: 117 :: 92 :: done) 1).run found (high :: low :: rest) := rfl
      _ = _ := (run_of_step third).trans (run_of_step fourth)
  | plain shown unquoted unslashed =>
    have goes : (string done).step b = some ([], .string (b :: done)) := by
      rw [step, if_neg unquoted, if_neg unslashed, if_neg shown]
    exact run_of_step goes

theorem run_escape (bs : Bytes) :
    (string done).run found (Json.escape bs ++ rest) =
      (string ((Json.escape bs).reverse ++ done)).run found rest := by
  induction bs generalizing done with
  | nil => rfl
  | cons b bs ih =>
    have parts : Json.escape (b :: bs) = escapeByte b ++ Json.escape bs := rfl
    rw [parts, List.append_assoc, run_escaped (escaped b), ih, List.reverse_append,
      List.append_assoc]

theorem start_of_isDigit {b : UInt8} (h : isDigit b = true) : start b = some ([], .number [b]) := by
  have other (c : UInt8) (hc : isDigit c = false) : b ≠ c := by
    rintro rfl
    rw [h] at hc
    cases hc
  have blank : isBlank b = false := by
    simp [isBlank, other 32 rfl, other 9 rfl, other 10 rfl, other 13 rfl]
  simp [start, blank, h, other 91 rfl, other 93 rfl, other 123 rfl, other 125 rfl, other 44 rfl,
    other 58 rfl, other 34 rfl, other 110 rfl, other 116 rfl, other 102 rfl]

theorem run_digits {ds : Bytes} (digits : ∀ b ∈ ds, isDigit b = true) :
    (number done).run found (ds ++ rest) = (number (ds.reverse ++ done)).run found rest := by
  induction ds generalizing done with
  | nil => rfl
  | cons b ds ih =>
    have goes : (number done).step b = some ([], .number (b :: done)) := by
      rw [step, if_pos]
      simp [isNumeric, digits b List.mem_cons_self]
    rw [List.cons_append, run_of_step goes, List.reverse_cons, List.append_assoc]
    exact ih fun c hc => digits c (List.mem_cons_of_mem b hc)

/-- A number ends with the text, or where a byte comes that is no part of numbers. -/
theorem run_number_end {n : Number} (whole : Number.ofToken? done.reverse = some n)
    (ends : ∀ b ∈ rest.head?, isNumeric b = false) :
    (number done).run found rest = between.run (.scalar (.number n) :: found) rest := by
  cases rest with
  | nil =>
    rw [run, finish, whole]
    rfl
  | cons b rest =>
    have other : ¬ isNumeric b = true := by simp [ends b rfl]
    have goes : (number done).step b = (start b).map fun t => (Token.scalar (.number n) :: t.1, t.2) := by
      rw [step, if_neg other, whole]
      cases start b <;> rfl
    rw [run, run, goes]
    have begins : between.step b = start b := rfl
    rw [begins]
    cases start b with
    | none => rfl
    | some next => simp

end Scan

/-- The text of the tokens is scanned into them, if no number goes on after it. -/
def Scans (ts : List Token) : Prop :=
  ∀ (found : List Token) (rest : Bytes), (∀ b ∈ rest.head?, isNumeric b = false) →
    Scan.between.run found (ts.flatMap Token.text ++ rest) =
      Scan.between.run (ts.reverse ++ found) rest

def Token.IsMark (t : Token) : Prop :=
  ∃ b, t.text = [b] ∧ Scan.start b = some ([t], .between) ∧ isNumeric b = false

namespace Token

theorem isMark_openArray : openArray.IsMark := ⟨91, rfl, rfl, rfl⟩

theorem isMark_closeArray : closeArray.IsMark := ⟨93, rfl, rfl, rfl⟩

theorem isMark_openObject : openObject.IsMark := ⟨123, rfl, rfl, rfl⟩

theorem isMark_closeObject : closeObject.IsMark := ⟨125, rfl, rfl, rfl⟩

theorem isMark_comma : comma.IsMark := ⟨44, rfl, rfl, rfl⟩

theorem isMark_colon : colon.IsMark := ⟨58, rfl, rfl, rfl⟩

end Token

namespace Scans

variable {ts us : List Token}

theorem nil : Scans [] :=
  fun _ _ _ => rfl

theorem append_cons {mark : Token} (before : Scans ts) (isMark : mark.IsMark) (after : Scans us) :
    Scans (ts ++ mark :: us) := by
  intro found rest ends
  obtain ⟨b, text, begins, other⟩ := isMark
  have bytes : (ts ++ mark :: us).flatMap Token.text ++ rest =
      ts.flatMap Token.text ++ b :: (us.flatMap Token.text ++ rest) := by
    simp [text]
  have step : Scan.between.step b = some ([mark], .between) := begins
  rw [bytes, before found _ (by simp [other]), Scan.run_of_step step, after _ rest ends]
  simp

theorem text (s : String) : Scans [.scalar (.string (ofText s))] := by
  intro found rest _
  have bytes : [Token.scalar (.string (ofText s))].flatMap Token.text ++ rest =
      34 :: (escape (Bytes.ofString s) ++ 34 :: rest) := by
    simp [Token.text, Scalar.text, ofText]
  have opens : Scan.between.step 34 = some ([], .string []) := rfl
  have closes (done : Bytes) :
      (Scan.string done).step 34 = some ([.scalar (.string done.reverse)], .between) := rfl
  rw [bytes, Scan.run_of_step opens, Scan.run_escape, Scan.run_of_step (closes _)]
  simp [ofText]

theorem natural (n : Nat) : Scans [.scalar (.number (.ofNat n))] := by
  intro found rest ends
  have digits : ∀ b ∈ spell n, isDigit b = true := fun _ => isDigit_of_mem_spell
  have whole := Number.ofToken?_spell n
  have bytes : [Token.scalar (.number (.ofNat n))].flatMap Token.text ++ rest = spell n ++ rest := by
    simp [Token.text, Scalar.text, Number.token_ofNat]
  rw [bytes]
  cases shown : spell n with
  | nil =>
    rw [shown] at whole
    cases whole
  | cons b ds =>
    rw [shown] at digits whole
    have opens : Scan.between.step b = some ([], .number [b]) :=
      Scan.start_of_isDigit (digits b List.mem_cons_self)
    rw [List.cons_append, Scan.run_of_step opens,
      Scan.run_digits fun c hc => digits c (List.mem_cons_of_mem b hc),
      Scan.run_number_end (by simpa using whole) ends]
    rfl

theorem items (h : Scans ts) {items : List Json} (each : ∀ v ∈ items, Scans v.tokens) :
    Scans (ts ++ itemTokens items ++ [.closeArray]) := by
  induction items generalizing ts with
  | nil =>
    rw [itemTokens, List.append_nil]
    exact h.append_cons Token.isMark_closeArray nil
  | cons v items ih =>
    have longer := h.append_cons Token.isMark_comma (each v List.mem_cons_self)
    have whole := ih longer fun w hw => each w (List.mem_cons_of_mem v hw)
    simpa [itemTokens] using whole

theorem members (h : Scans ts) {members : List (String × Json)}
    (each : ∀ m ∈ members, Scans m.2.tokens) :
    Scans (ts ++ memberTokens (members.map fun m => (ofText m.1, m.2)) ++ [.closeObject]) := by
  induction members generalizing ts with
  | nil =>
    rw [List.map_nil, memberTokens, List.append_nil]
    exact h.append_cons Token.isMark_closeObject nil
  | cons m members ih =>
    have longer := h.append_cons Token.isMark_comma
      ((text m.1).append_cons Token.isMark_colon (each m List.mem_cons_self))
    have whole := ih longer fun n hn => each n (List.mem_cons_of_mem m hn)
    simpa [memberTokens] using whole

end Scans

theorem Plain.scans {v : Json} (h : v.Plain) : Scans v.tokens := by
  induction h with
  | null => exact fun _ _ _ => rfl
  | bool b => cases b <;> exact fun _ _ _ => rfl
  | natural _ => exact .natural _
  | text s => exact .text s
  | @array items _ ih =>
    cases items with
    | nil =>
      exact (Scans.nil.append_cons Token.isMark_openArray .nil).append_cons Token.isMark_closeArray .nil
    | cons v items =>
      have first := Scans.nil.append_cons Token.isMark_openArray (ih v List.mem_cons_self)
      have whole := first.items fun w hw => ih w (List.mem_cons_of_mem v hw)
      simpa [tokens] using whole
  | @record members _ ih =>
    cases members with
    | nil =>
      exact (Scans.nil.append_cons Token.isMark_openObject .nil).append_cons Token.isMark_closeObject .nil
    | cons m members =>
      have first := Scans.nil.append_cons Token.isMark_openObject
        ((Scans.text m.1).append_cons Token.isMark_colon (ih m List.mem_cons_self))
      have whole := first.members fun n hn => ih n (List.mem_cons_of_mem m hn)
      simpa [ofMembers, tokens] using whole

/-- The first item of an array is read like any other value. -/
theorem run_firstItem (v : Json) (stack : List Frame) (ts : List Token) :
    (Reader.firstItem stack).run (v.tokens ++ ts) =
      (Reader.value (.array [] :: stack)).run (v.tokens ++ ts) := by
  cases v with
  | scalar s => rfl
  | array items => cases items <;> rfl
  | object members => cases members <;> rfl

mutual

/-- Where a value is expected, the tokens of a value are read as that value. -/
theorem run_tokens (v : Json) (stack : List Frame) (ts : List Token) :
    (Reader.value stack).run (v.tokens ++ ts) = (Reader.deliver v stack).run ts := by
  match v with
  | .scalar s => rfl
  | .array [] => rfl
  | .array (v :: items) =>
    have opened : (Reader.value stack).run ((Json.array (v :: items)).tokens ++ ts) =
        (Reader.firstItem stack).run (v.tokens ++ (itemTokens items ++ .closeArray :: ts)) := by
      simp [tokens, Reader.run, Reader.step, Reader.begin]
    rw [opened, run_firstItem, run_tokens v, Reader.deliver, run_itemTokens items]
    rfl
  | .object [] => rfl
  | .object ((key, v) :: members) =>
    have opened : (Reader.value stack).run ((Json.object ((key, v) :: members)).tokens ++ ts) =
        (Reader.value (.object [] key :: stack)).run
          (v.tokens ++ (memberTokens members ++ .closeObject :: ts)) := by
      simp [tokens, Reader.run, Reader.step, Reader.begin]
    rw [opened, run_tokens v, Reader.deliver, run_memberTokens members]
    rfl

theorem run_itemTokens (items done : List Json) (stack : List Frame) (ts : List Token) :
    (Reader.afterItem done stack).run (itemTokens items ++ .closeArray :: ts) =
      (Reader.deliver (.array (done.reverse ++ items)) stack).run ts := by
  match items with
  | [] =>
    rw [List.append_nil]
    rfl
  | v :: items =>
    have next : (Reader.afterItem done stack).run (itemTokens (v :: items) ++ .closeArray :: ts) =
        (Reader.value (.array done :: stack)).run
          (v.tokens ++ (itemTokens items ++ .closeArray :: ts)) := by
      simp [itemTokens, Reader.run, Reader.step]
    rw [next, run_tokens v, Reader.deliver, run_itemTokens items, List.reverse_cons,
      List.append_assoc]
    rfl

theorem run_memberTokens (members done : List (Bytes × Json)) (stack : List Frame)
    (ts : List Token) :
    (Reader.afterMember done stack).run (memberTokens members ++ .closeObject :: ts) =
      (Reader.deliver (.object (done.reverse ++ members)) stack).run ts := by
  match members with
  | [] =>
    rw [List.append_nil]
    rfl
  | (key, v) :: members =>
    have next : (Reader.afterMember done stack).run
          (memberTokens ((key, v) :: members) ++ .closeObject :: ts) =
        (Reader.value (.object done key :: stack)).run
          (v.tokens ++ (memberTokens members ++ .closeObject :: ts)) := by
      simp [memberTokens, Reader.run, Reader.step]
    rw [next, run_tokens v, Reader.deliver, run_memberTokens members, List.reverse_cons,
      List.append_assoc]
    rfl

end

theorem read_write {v : Json} (h : v.Plain) : read (write v) = some v := by
  have scanned := h.scans [] [] (by simp)
  rw [List.append_nil, List.append_nil] at scanned
  have tokens : tokens? (write v) = some v.tokens := by
    rw [tokens?, write, scanned]
    simp [Scan.run, Scan.finish]
  have whole := run_tokens v [] []
  rw [List.append_nil] at whole
  rw [read, tokens, Option.bind_some, whole]
  rfl

end LedgerIndex.Json
