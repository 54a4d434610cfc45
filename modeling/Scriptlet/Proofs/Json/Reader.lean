import Mathlib.Tactic.SplitIfs
import Scriptlet.Json.Read
import Scriptlet.Proofs.Json.Members
import Scriptlet.Proofs.Numeral

/-!
# What a reader of JSON answers

A reader leaves an end of the characters that it is given. It refuses an integer for its length only
if as many digits stand there, one after the other, and a container for those around it only if
there are more opening brackets than it has room for. The names in the objects that it gives are
distinct, and the integers in all that it gives are short.

* `Answers`: what is said of all readers, with one lemma for readers that follow one another.
* `parse_cases`: what follows for whole texts.
* `parse_brackets`: opening brackets alone, one more than there is room for.
-/

namespace Scriptlet.Json

/-- An object has distinct names. -/
def Distinct : Json → Prop
  | object ms => (ms.map Prod.fst).Nodup
  | _ => True

/-- No integer in a value has more digits than a numeral may have. -/
inductive Short : Json → Prop
  | null : Short null
  | bool {b : Bool} : Short (bool b)
  | int {n : Int} : Numeral.Short n → Short (int n)
  | float {text : String} : Short (float text)
  | string {s : String} : Short (string s)
  | array {vs : List Json} : (∀ v ∈ vs, Short v) → Short (array vs)
  | object {ms : List (String × Json)} : (∀ m ∈ ms, Short m.2) → Short (object ms)

/-- What the readers say of a value that they give. -/
structure WellRead (v : Json) : Prop where
  distinct : v.Distinct
  short : v.Short

/-- Digits that are too many for an integer stand in the characters `cs`, and nothing between
them. -/
structure LongRun (cs digits : List Char) : Prop where
  stand : digits <:+: cs
  digit : ∀ d ∈ digits, isDigit d = true
  long : Numeral.maxDigits < digits.length

/-- A character that opens a container, where it stands outside of a string. -/
def isOpening (c : Char) : Bool := c == '[' || c == '{'

/-- What a reader answers for the characters `cs`, with a value that has the property `P` and with
room for so many containers inside one another. -/
inductive Answers {α : Type} (P : α → Prop) (room : Nat) (cs : List Char) :
    Except Stop (α × List Char) → Prop
  | ok {a : α} {rest : List Char} : P a → rest <:+ cs → Answers P room cs (.ok (a, rest))
  | problem {what : Problem} {ahead : List Char} : Answers P room cs (.error (.problem what ahead))
  | hugeInteger {digits : List Char} :
      LongRun cs digits → Answers P room cs (.error (.hugeInteger digits.length))
  | tooNested {inside : Container} :
      room < cs.countP isOpening → Answers P room cs (.error (.tooNested inside))

namespace Answers

variable {α β : Type} {P : α → Prop} {Q : β → Prop} {room : Nat} {cs cs' : List Char}

theorem mono {r : Except Stop (α × List Char)} (h : Answers P room cs r) (hcs : cs <:+ cs') :
    Answers P room cs' r := by
  cases h with
  | ok ha hrest => exact .ok ha (hrest.trans hcs)
  | problem => exact .problem
  | hugeInteger hrun => exact .hugeInteger ⟨hrun.stand.trans hcs.isInfix, hrun.digit, hrun.long⟩
  | tooNested hroom => exact .tooNested (Nat.lt_of_lt_of_le hroom hcs.sublist.countP_le)

/-- One reader after another, on what the first one leaves. -/
theorem bind {x : Except Stop (α × List Char)} {f : α × List Char → Except Stop (β × List Char)}
    (hx : Answers P room cs x) (hf : ∀ a rest, P a → Answers Q room rest (f (a, rest))) :
    Answers Q room cs (x >>= f) := by
  cases hx with
  | ok ha hrest => exact (hf _ _ ha).mono hrest
  | problem => exact .problem
  | hugeInteger hrun => exact .hugeInteger hrun
  | tooNested hroom => exact .tooNested hroom

/-- What is read inside a container leaves room for the container itself. -/
theorem inside {r : Except Stop (α × List Char)} {c : Char} (hc : isOpening c)
    (h : Answers P room cs r) : Answers P (room + 1) (c :: cs) r := by
  cases h with
  | ok ha hrest => exact .ok ha (hrest.trans (List.suffix_cons c cs))
  | problem => exact .problem
  | hugeInteger hrun =>
    have hstand := hrun.stand.trans (List.suffix_cons c cs).isInfix
    exact .hugeInteger ⟨hstand, hrun.digit, hrun.long⟩
  | tooNested hroom =>
    refine .tooNested ?_
    rw [List.countP_cons_of_pos hc]
    exact Nat.succ_lt_succ hroom

end Answers

variable {room : Nat}

/-! ## Strings -/

theorem suffix_of_point? {cs after : List Char} {n : Nat} (h : point? cs = some (n, after)) :
    after <:+ cs := by
  unfold point? at h
  split at h
  · rename_i a b c d rest
    split at h
    · cases h
    · obtain ⟨m, -, hm⟩ := Option.map_eq_some_iff.1 h
      cases hm
      exact ⟨[a, b, c, d], rfl⟩
  · cases h

theorem answers_readPoint (cs : List Char) : Answers (fun _ => True) room cs (readPoint cs) := by
  unfold readPoint
  split
  · exact .problem
  · rename_i high after hpoint
    have hafter := suffix_of_point? hpoint
    split
    · rename_i ds
      split
      · split
        · exact .problem
        · rename_i low after₂ hpoint₂
          split
          · have hds : ds <:+ '\\' :: 'u' :: ds := ⟨['\\', 'u'], rfl⟩
            exact .ok trivial ((suffix_of_point? hpoint₂).trans (hds.trans hafter))
          · exact .ok trivial hafter
      · exact .ok trivial hafter
    · exact .ok trivial hafter

theorem answers_readString (opening : List Char) (fuel : Nat) (cs : List Char) :
    Answers (fun _ => True) room cs (readString opening fuel cs) := by
  induction fuel generalizing cs with
  | zero => exact .problem
  | succ fuel ih =>
    unfold readString
    split
    · exact .problem
    · exact .ok trivial (List.suffix_cons _ _)
    · exact .problem
    · rename_i rest
      refine Answers.mono ?_ ⟨['\\', 'u'], rfl⟩
      refine (answers_readPoint rest).bind fun c rest _ => ?_
      exact (ih rest).bind fun _ _ _ => .ok trivial List.suffix_rfl
    · rename_i e rest _
      split
      · exact .problem
      · refine Answers.mono ?_ ⟨['\\', e], rfl⟩
        exact (ih rest).bind fun _ _ _ => .ok trivial List.suffix_rfl
    · rename_i c rest _ _ _ _
      split
      · exact .problem
      · refine Answers.mono ?_ (List.suffix_cons c rest)
        exact (ih rest).bind fun _ _ _ => .ok trivial List.suffix_rfl

/-! ## Numbers -/

theorem integerPart?_eq_some {cs digits rest : List Char}
    (h : integerPart? cs = some (digits, rest)) :
    digits ++ rest = cs ∧ ∀ d ∈ digits, isDigit d = true := by
  unfold integerPart? at h
  split at h
  · cases h
    exact ⟨rfl, List.forall_mem_singleton.2 rfl⟩
  · rename_i c rest _
    split at h
    · rename_i hc
      cases h
      refine ⟨congrArg (c :: ·) List.takeWhile_append_dropWhile, fun d hd => ?_⟩
      rcases List.mem_cons.1 hd with rfl | hd
      · exact hc
      · exact List.all_eq_true.1 List.all_takeWhile d hd
    · cases h
  · cases h

theorem short_of_isDigit {digits : List Char} (h : ∀ d ∈ digits, isDigit d = true)
    (hl : digits.length ≤ Numeral.maxDigits) :
    Numeral.Short (Numeral.ofDigits (digits.map fun c => c.toNat - '0'.toNat)) := by
  refine Numeral.short_ofDigits (fun d hd => ?_) (by rwa [List.length_map])
  obtain ⟨c, hc, rfl⟩ := List.mem_map.1 hd
  have hrange := Numeral.isDigit_iff.1 (h c hc)
  show c.toNat - 48 < 10
  omega

theorem fractionPart_suffix (cs : List Char) : (fractionPart cs).2 <:+ cs := by
  unfold fractionPart
  split
  · rename_i rest
    dsimp only
    split
    · exact List.suffix_rfl
    · exact (List.dropWhile_suffix _).trans (List.suffix_cons _ _)
  · exact List.suffix_rfl

theorem exponentPart_suffix (cs : List Char) : (exponentPart cs).2 <:+ cs := by
  unfold exponentPart
  split
  · exact List.suffix_rfl
  · rename_i e rest
    split
    · dsimp only
      split
      · exact List.suffix_rfl
      · have hafter := List.dropWhile_suffix isDigit (l := rest.drop
          ((rest.take 1).filter fun c => c == '+' || c == '-').length)
        exact hafter.trans ((List.drop_suffix _ _).trans (List.suffix_cons e rest))
    · exact List.suffix_rfl

theorem answers_readNumber (ahead sign cs : List Char) :
    Answers WellRead room cs (readNumber ahead sign cs) := by
  unfold readNumber
  split
  · exact .problem
  · rename_i digits rest hpart
    obtain ⟨hcs, hdigits⟩ := integerPart?_eq_some hpart
    -- a fraction and an exponent may be empty, which leaves what is behind the digits
    have hrest : (exponentPart (fractionPart rest).2).2 <:+ cs :=
      ((exponentPart_suffix _).trans (fractionPart_suffix rest)).trans ⟨digits, hcs⟩
    dsimp only
    split
    · split
      · rename_i hlong
        exact .hugeInteger ⟨⟨[], rest, hcs⟩, hdigits, hlong⟩
      · rename_i hlong
        have hshort := short_of_isDigit hdigits (Nat.not_lt.1 hlong)
        refine .ok ⟨trivial, .int ?_⟩ hrest
        split
        · exact hshort
        · exact hshort.neg
    · exact .ok ⟨trivial, .float⟩ hrest

theorem answers_readScalar (cs : List Char) : Answers WellRead room cs (readScalar cs) := by
  unfold readScalar
  split
  · exact .ok ⟨trivial, .null⟩ ⟨"null".toList, rfl⟩
  · exact .ok ⟨trivial, .bool⟩ ⟨"true".toList, rfl⟩
  · exact .ok ⟨trivial, .bool⟩ ⟨"false".toList, rfl⟩
  · exact .ok ⟨trivial, .float⟩ ⟨"NaN".toList, rfl⟩
  · exact .ok ⟨trivial, .float⟩ ⟨"Infinity".toList, rfl⟩
  · exact .ok ⟨trivial, .float⟩ ⟨"-Infinity".toList, rfl⟩
  · exact (answers_readNumber _ _ _).mono (List.suffix_cons _ _)
  · exact answers_readNumber _ _ _

/-! ## Values -/

theorem skipSpace_suffix (cs : List Char) : skipSpace cs <:+ cs := List.dropWhile_suffix _

/-- What comes behind a delimiter. -/
theorem suffix_of_skipSpace {c : Char} {cs rest : List Char} (h : skipSpace cs = c :: rest) :
    rest <:+ cs :=
  (List.suffix_cons c rest).trans (h ▸ skipSpace_suffix cs)

/-- The three readers that call one another, by the fuel that they have. -/
theorem answers_read (fuel : Nat) : ∀ room,
    (∀ cs, Answers WellRead room cs (readValue fuel room cs)) ∧
    (∀ cs, Answers (fun vs => ∀ v ∈ vs, v.Short) room cs (readElements fuel room cs)) ∧
    ∀ cs, Answers (fun ms => ∀ m ∈ ms, m.2.Short) room cs (readMembers fuel room cs) := by
  -- each of the three calls the others with less fuel, and without any it reports a problem
  induction fuel with
  | zero =>
    refine fun room => ⟨fun cs => ?_, fun cs => ?_, fun cs => ?_⟩
    · rw [readValue]
      exact .problem
    · rw [readElements]
      exact .problem
    · rw [readMembers]
      exact .problem
  | succ fuel ih =>
    intro room
    obtain ⟨ihv, ihe, ihm⟩ := ih room
    refine ⟨fun cs => ?_, fun cs => ?_, fun cs => ?_⟩
    · unfold readValue
      split
      · rename_i rest
        refine Answers.mono ?_ (List.suffix_cons _ rest)
        exact (answers_readString _ _ rest).bind fun _ _ _ =>
          .ok ⟨trivial, .string⟩ List.suffix_rfl
      · rename_i rest
        cases room with
        | zero => exact .tooNested (List.countP_pos_iff.2 ⟨'{', List.mem_cons_self, rfl⟩)
        | succ room =>
          refine Answers.inside rfl ?_
          dsimp only
          split
          · rename_i hclose
            have hnone : ∀ m ∈ ([] : List (String × Json)), m.2.Short := List.forall_mem_nil _
            exact .ok ⟨List.nodup_nil, .object hnone⟩ (suffix_of_skipSpace hclose)
          · refine Answers.mono ?_ (skipSpace_suffix rest)
            refine ((ih room).2.2 _).bind fun ms _ hms => ?_
            have hshort : ∀ m ∈ ofMembers ms, m.2.Short := fun m hm => hms m (mem_ofMembers hm)
            exact .ok ⟨nodup_ofMembers ms, .object hshort⟩ List.suffix_rfl
      · rename_i rest
        cases room with
        | zero => exact .tooNested (List.countP_pos_iff.2 ⟨'[', List.mem_cons_self, rfl⟩)
        | succ room =>
          refine Answers.inside rfl ?_
          dsimp only
          split
          · rename_i hclose
            have hnone : ∀ v ∈ ([] : List Json), v.Short := List.forall_mem_nil _
            exact .ok ⟨trivial, .array hnone⟩ (suffix_of_skipSpace hclose)
          · refine Answers.mono ?_ (skipSpace_suffix rest)
            exact ((ih room).2.1 _).bind fun _ _ hvs => .ok ⟨trivial, .array hvs⟩ List.suffix_rfl
      · exact answers_readScalar cs
    · unfold readElements
      refine (ihv cs).bind fun v rest hv => ?_
      dsimp only
      split
      · rename_i hclose
        exact .ok (List.forall_mem_singleton.2 hv.short) (suffix_of_skipSpace hclose)
      · rename_i hcomma
        refine Answers.mono ?_ ((skipSpace_suffix _).trans (suffix_of_skipSpace hcomma))
        exact (ihe _).bind fun _ _ hvs =>
          .ok (List.forall_mem_cons.2 ⟨hv.short, hvs⟩) List.suffix_rfl
      · exact .problem
    · unfold readMembers
      split
      · rename_i rest
        refine Answers.mono ?_ (List.suffix_cons _ rest)
        refine (answers_readString _ _ rest).bind fun name rest _ => ?_
        dsimp only
        split
        · rename_i hcolon
          refine Answers.mono ?_ ((skipSpace_suffix _).trans (suffix_of_skipSpace hcolon))
          refine (ihv _).bind fun v rest hv => ?_
          dsimp only
          split
          · rename_i hclose
            exact .ok (List.forall_mem_singleton.2 hv.short) (suffix_of_skipSpace hclose)
          · rename_i hcomma
            refine Answers.mono ?_ ((skipSpace_suffix _).trans (suffix_of_skipSpace hcomma))
            exact (ihm _).bind fun _ _ hms =>
              .ok (List.forall_mem_cons.2 ⟨hv.short, hms⟩) List.suffix_rfl
          · exact .problem
        · exact .problem
      · exact .problem

/-! ## Texts -/

theorem readAll_cases (room : Nat) (cs : List Char) :
    (∃ v, readAll room cs = .ok v ∧ v.WellRead) ∨
    (∃ what ahead, readAll room cs = .error (.problem what ahead)) ∨
    (∃ digits, readAll room cs = .error (.hugeInteger digits.length) ∧ LongRun cs digits) ∨
    ∃ inside, readAll room cs = .error (.tooNested inside) ∧ room < cs.countP isOpening := by
  unfold readAll
  split
  · exact .inr (.inl ⟨_, _, rfl⟩)
  · have hread := ((answers_read (2 * cs.length + 2) room).1 (skipSpace cs)).mono
      (skipSpace_suffix cs)
    generalize readValue (2 * cs.length + 2) room (skipSpace cs) = r at hread ⊢
    cases hread with
    | @ok v rest hv _ =>
      dsimp only [bind, Except.bind]
      split
      · exact .inl ⟨v, rfl, hv⟩
      · exact .inr (.inl ⟨_, _, rfl⟩)
    | problem => exact .inr (.inl ⟨_, _, rfl⟩)
    | hugeInteger hrun => exact .inr (.inr (.inl ⟨_, rfl, hrun⟩))
    | tooNested hroom => exact .inr (.inr (.inr ⟨_, rfl, hroom⟩))

/-- **What a text is read as.** It is a value with distinct names and short integers, or it is
malformed, or there are too many digits in it for an integer, or more opening brackets than there is
room for containers. -/
theorem parse_cases (limit : Option Nat) (text : String) :
    (∃ v, parse limit text = .ok v ∧ v.WellRead) ∨
    (∃ what line column offset, parse limit text = .error (.malformed what line column offset)) ∨
    (∃ digits, parse limit text = .error (.hugeInteger digits.length) ∧
      LongRun text.toList digits) ∨
    ∃ inside room, parse limit text = .error (.tooNested inside) ∧ limit = some room ∧
      room < text.toList.countP isOpening := by
  unfold parse
  rcases readAll_cases (limit.getD text.toList.length) text.toList with
    ⟨v, hv, hread⟩ | ⟨what, ahead, h⟩ | ⟨digits, h, hrun⟩ | ⟨inside, h, hroom⟩
  · exact .inl ⟨v, by rw [hv]; rfl, hread⟩
  · exact .inr (.inl ⟨_, _, _, _, by rw [h]; rfl⟩)
  · exact .inr (.inr (.inl ⟨digits, by rw [h]; rfl, hrun⟩))
  · cases limit with
    | none => exact absurd hroom (Nat.not_lt.2 List.countP_le_length)
    | some room => exact .inr (.inr (.inr ⟨inside, room, by rw [h]; rfl, rfl, hroom⟩))

theorem readValue_brackets (fuel room : Nat) :
    readValue (2 * room + fuel + 1) room (List.replicate (room + 1) '[') =
      .error (.tooNested .array) := by
  induction room with
  | zero => rfl
  | succ room ih =>
    have helements : readElements (2 * room + fuel + 1 + 1) room (List.replicate (room + 1) '[') =
        .error (.tooNested .array) := by
      rw [readElements, ih]
      rfl
    have hfuel : 2 * (room + 1) + fuel + 1 = 2 * room + fuel + 1 + 1 + 1 := by omega
    rw [hfuel, List.replicate_succ, readValue]
    show (readElements (2 * room + fuel + 1 + 1) room (List.replicate (room + 1) '[') >>= _) = _
    rw [helements]
    rfl

/-- **One bracket more than there is room for.** -/
theorem parse_brackets (room : Nat) :
    parse (some room) (String.ofList (List.replicate (room + 1) '[')) =
      .error (.tooNested .array) := by
  have hfuel : 2 * (List.replicate (room + 1) '[').length + 2 = 2 * room + 3 + 1 := by
    rw [List.length_replicate]
    omega
  have hall : readAll room (List.replicate (room + 1) '[') = .error (.tooNested .array) := by
    rw [readAll, if_neg (by rw [List.head?_replicate]; simp)]
    show (readValue _ room (List.replicate (room + 1) '[') >>= _) = _
    rw [hfuel, readValue_brackets]
    rfl
  unfold parse
  rw [String.toList_ofList]
  show (readAll room (List.replicate (room + 1) '[')).mapError _ = _
  rw [hall]
  rfl

end Scriptlet.Json
