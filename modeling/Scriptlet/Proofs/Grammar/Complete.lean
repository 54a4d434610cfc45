import Scriptlet.Proofs.Grammar.Sound
import Scriptlet.Proofs.Parser.Exact

/-!
# What is grammatical is read

Tokens that the grammar derives are read as some tree, and so the parser accepts exactly the
grammar. The grammar derives an expression as one flat row of operands. Reading it takes, at each
operator, the operands that bind tighter; by induction on the number of operands this always stops
at an operator of the same row, and at the lowest power it takes them all (`Chain.climb`).

* `Complete`: what reading has to do for each phrase, and what may follow it.
* `Derives.complete`: it does so for whatever the grammar derives.
* `errors_eq_nil_iff_derives`: the parser reports nothing iff the grammar derives the tokens.
-/

namespace Scriptlet.Grammar

open Scriptlet.Parser
open Syntax (Node)
open Token (Kind)

/-- The tokens `ts` have the kinds `ks`, and their numbers are not too large. -/
def Fit (ts : List Token) (ks : List Kind) : Prop := kinds ts = ks ∧ ∀ t ∈ ts, Numeric t

/-- After what may end with a condition comes no `else`. -/
def NoElse (ks : List Kind) : Prop := ∀ k ∈ ks.head?, k ≠ .elseKey

/-- After a unary comes no call, and no `else`. -/
def Settled (ks : List Kind) : Prop := ∀ k ∈ ks.head?, k ≠ .lparen ∧ k ≠ .elseKey

/-- After a statement comes no semicolon, and no `else`. -/
def Fresh (ks : List Kind) : Prop := ∀ k ∈ ks.head?, k ≠ .semicolon ∧ k ≠ .elseKey

section

variable {ts : List Token} {k : Kind} {ks ms rs : List Kind}

theorem fit_cons :
    Fit ts (k :: ks) ↔ ∃ t us, ts = t :: us ∧ t.kind = k ∧ Numeric t ∧ Fit us ks := by
  unfold Fit
  constructor
  · rintro ⟨hk, hn⟩
    obtain ⟨t, us, rfl, ht, hus⟩ := List.map_eq_cons_iff.1 hk
    rw [List.forall_mem_cons] at hn
    exact ⟨t, us, rfl, ht, hn.1, hus, hn.2⟩
  · rintro ⟨t, us, rfl, rfl, hn, rfl, hns⟩
    exact ⟨rfl, List.forall_mem_cons.2 ⟨hn, hns⟩⟩

theorem fit_nil : Fit ts [] ↔ ts = [] := by
  unfold Fit
  constructor
  · exact fun h => List.map_eq_nil_iff.1 h.1
  · rintro rfl
    exact ⟨rfl, nofun⟩

theorem Fit.length_eq (h : Fit ts ks) : ts.length = ks.length := by
  rw [← h.1, List.length_map]

/-! ## What comes next -/

/-- Where a phrase begins that a statement may follow. -/
theorem Derives.fresh {x : Phrase} (h : Derives x ks rs) :
    match x with
    | .program | .statement | .expression | .unary | .primary | .body => Fresh ks
    | _ => True := by
  induction h with
  | noStatement => exact nofun
  | statement _ _ ih _ => exact ih
  | binding => rintro _ ⟨⟩; decide
  | returning => rintro _ ⟨⟩; decide
  | expression _ _ _ _ ih => exact ih
  | operation _ _ ih _ => exact ih
  | prefixed hk _ _ =>
    rintro _ ⟨⟩
    rcases hk with rfl | rfl <;> decide
  | called _ _ ih _ => exact ih
  | atom hk =>
    rintro k ⟨⟩
    have : ∀ k ∈ [Kind.ident, .int, .string, .trueKey, .falseKey],
        k ≠ .semicolon ∧ k ≠ .elseKey := by decide
    exact this _ hk
  | group => rintro _ ⟨⟩; decide
  | conditional => rintro _ ⟨⟩; decide
  | function => rintro _ ⟨⟩; decide
  | closed => rintro _ ⟨⟩; decide
  | unclosed => exact nofun
  | inside _ _ ih _ => exact ih
  | _ => trivial

theorem Fresh.noElse (h : Fresh ks) : NoElse ks := fun k hk => (h k hk).2

theorem noElse_cons (h : k ≠ .elseKey) : NoElse (k :: ks) := by
  rintro _ ⟨⟩
  exact h

theorem munched_cons (h : k.isInfix = false ∧ k ≠ .lparen) : Munched (k :: ks) := by
  rintro _ ⟨⟩
  exact h

theorem noElse_replicate {n : Nat} (h : NoElse rs) :
    NoElse (List.replicate n .semicolon ++ rs) := by
  cases n with
  | zero => exact h
  | succ n => exact noElse_cons nofun

theorem Derives.noElse_of_calls (h : Derives .calls ks rs) (hr : NoElse rs) : NoElse ks := by
  cases h with
  | noCall => exact hr
  | call => exact noElse_cons nofun

theorem Derives.settled_of_operands (h : Derives .operands ks rs) (hr : Settled rs) :
    Settled ks := by
  cases h with
  | noOperand => exact hr
  | operand hk =>
    rintro _ ⟨⟩
    constructor
    · rintro rfl
      cases hk
    · rintro rfl
      cases hk

theorem settled_of_munched (hm : Munched ks) (he : NoElse ks) : Settled ks :=
  fun k hk => ⟨(hm k hk).2, he k hk⟩

theorem Derives.munched_of_moreArguments (h : Derives .moreArguments ks rs) :
    Munched ks ∧ NoElse ks := by
  cases h with
  | lastArgument => exact ⟨munched_cons (by decide), noElse_cons nofun⟩
  | anotherArgument => exact ⟨munched_cons (by decide), noElse_cons nofun⟩

end

/-! ## Rows of operands -/

/-- At most `n` operators before `r`, each with a unary to its right. -/
inductive Chain : Nat → List Token → List Token → Prop
  | nil {n : Nat} {r : List Token} : Chain n r r
  | cons {n : Nat} {t : Token} {us m r : List Token} : t.kind.isInfix = true →
      m.length < us.length →
      (∀ b, us.length ≤ b + 1 + m.length → ∃ e, Reads.Opens b us m e) →
      Chain n m r → Chain (n + 1) (t :: us) r

theorem Chain.length_le {n : Nat} {ts r : List Token} (h : Chain n ts r) :
    r.length ≤ ts.length := by
  induction h with
  | nil => exact Nat.le_refl _
  | cons _ hl _ _ ih =>
    rw [List.length_cons]
    omega

theorem Chain.succ {n : Nat} {ts r : List Token} (h : Chain n ts r) : Chain (n + 1) ts r := by
  induction h with
  | nil => exact .nil
  | cons hi hl ho _ ih => exact .cons hi hl ho ih

theorem ends_of_munched {power : Nat} {r : List Token} (h : Munched (kinds r)) :
    Reads.Ends power r := by
  cases r with
  | nil => exact nofun
  | cons t r =>
    have h := h t.kind rfl
    rintro _ ⟨⟩ ⟨hi | hl, -⟩
    · rw [h.1] at hi
      cases hi
    · exact h.2 hl

/-- **Reading a row of operands stops at an operator of the row**, or at its end. -/
theorem Chain.climb {r : List Token} (hr : Munched (kinds r)) :
    ∀ (n b power : Nat) (left : Node) (ts : List Token), Chain n ts r →
      ts.length ≤ b + 1 + r.length →
      ∃ m e, Reads.Extension (Reads.Expression b) power left ts m e ∧ Chain n m r ∧
        Reads.Ends power m ∧ m.length ≤ ts.length := by
  intro n
  induction n with
  | zero =>
    intro b power left ts h _
    cases h
    exact ⟨r, left, .done (ends_of_munched hr), .nil, ends_of_munched hr, Nat.le_refl _⟩
  | succ n ih =>
    intro b power left ts h hb
    cases h with
    | nil => exact ⟨r, left, .done (ends_of_munched hr), .nil, ends_of_munched hr, Nat.le_refl _⟩
    | @cons _ t us m _ hi hl ho hm =>
      by_cases hp : power < t.kind.power
      · -- the operator binds tighter: its right operand stops in the rest of the row
        have hrm := hm.length_le
        rw [List.length_cons] at hb
        obtain ⟨c, rfl⟩ : ∃ c, b = c + 1 := ⟨b - 1, by omega⟩
        obtain ⟨e, he⟩ := ho c (by omega)
        obtain ⟨m₁, right, hx, hm₁, hends, hle⟩ := ih c t.kind.power e m hm (by omega)
        -- what is left of the row extends the whole operation
        obtain ⟨m₂, x, hx₂, hm₂, hends₂, hle₂⟩ :=
          ih (c + 1) power (.binary t.pos left t.text right) m₁ hm₁ (by omega)
        refine ⟨m₂, x, ?_, hm₂.succ, hends₂, by rw [List.length_cons]; omega⟩
        exact .binary hi hp (he _ _ _ (Nat.le_of_lt (power_of_isInfix hi).2) hx) hx₂
      · -- the operator is left to the caller, which binds less tightly
        have hends : Reads.Ends power (t :: us) := by
          rintro _ ⟨⟩ ⟨-, h⟩
          exact hp h
        exact ⟨t :: us, left, .done hends, .cons hi hl ho hm, hends, Nat.le_refl _⟩

/-- At the lowest power the whole row is read. -/
theorem Chain.reads {n b : Nat} {ts r : List Token} (h : Chain n ts r) (left : Node)
    (hr : Munched (kinds r)) (hb : ts.length ≤ b + 1 + r.length) :
    ∃ e, Reads.Extension (Reads.Expression b) Kind.lowestPower left ts r e := by
  obtain ⟨m, e, hx, hm, hends, -⟩ := Chain.climb hr n b Kind.lowestPower left ts h hb
  cases hm with
  | nil => exact ⟨e, hx⟩
  | cons hi => exact absurd ⟨.inl hi, (power_of_isInfix hi).1⟩ (hends _ rfl)

/-! ## Phrases -/

/-- Tokens of the kinds `ks` have tokens of the kinds `rs` at their end, and `P` holds of both for
every budget that is at least the number of tokens in between, less `w`. -/
def Carries (w : Nat) (ks rs : List Kind) (P : Nat → List Token → List Token → Prop) : Prop :=
  ∀ ts, Fit ts ks → ∃ r, Fit r rs ∧ ∀ b, ks.length ≤ b + w + rs.length → P b ts r

/-- What reading has to do for a phrase. -/
def Complete : Phrase → List Kind → List Kind → Prop
  | .program, ks, rs => Carries 0 ks rs fun b ts _ =>
    ∃ ss, Reads.Program (Reads.Expression b) ts ss
  | .statement, ks, rs => Fresh rs → Carries 0 ks rs fun b ts r =>
    ∃ s, Reads.Statement (Reads.Expression b) ts r s
  | .expression, ks, rs => Munched rs → NoElse rs → Carries 0 ks rs fun b ts r =>
    ∃ e, Reads.Expression b Kind.lowestPower ts r e
  | .operands, ks, rs => Settled rs → Carries 0 ks rs fun _ ts r => ∃ n, Chain n ts r
  | .unary, ks, rs => Settled rs → Carries 1 ks rs fun b ts r => ∃ e, Reads.Opens b ts r e
  | .calls, ks, rs => Carries 0 ks rs fun b ts r => ∀ left, ∃ e, ∀ power r' x,
    power ≤ Kind.prefixPower → Reads.Extension (Reads.Expression b) power e r r' x →
      Reads.Extension (Reads.Expression b) power left ts r' x
  | .arguments, ks, rs => Carries 0 ks rs fun b ts r =>
    ∃ es, Reads.Arguments (Reads.Expression b) ts r es
  | .moreArguments, ks, rs => Carries 0 ks rs fun b ts r =>
    ∃ es, Reads.MoreArguments (Reads.Expression b) ts r es
  | .primary, ks, rs => NoElse rs → Carries 1 ks rs fun b ts r =>
    ∃ e, Reads.Start (Reads.Expression b) ts r e
  | .alternative, ks, rs => NoElse rs → Carries 0 ks rs fun b ts r =>
    ∃ o, Reads.Else (Reads.Expression b) ts r o
  | .parameters, ks, rs => Carries 0 ks rs fun _ ts r => ∃ ns, Reads.Parameters ts r ns
  | .moreParameters, ks, rs => Carries 0 ks rs fun _ ts r => ∃ ns, Reads.MoreParameters ts r ns
  | .block, ks, rs => Carries 0 ks rs fun b ts r => ∃ t us ss, ts = t :: us ∧ t.kind = .lbrace ∧
    Reads.Body (Reads.Expression b) us r ss
  | .body, ks, rs => Carries 0 ks rs fun b ts r => ∃ ss, Reads.Body (Reads.Expression b) ts r ss

section

variable {k : Kind} {ks ms rs : List Kind} {v w : Nat} {P Q S : Nat → List Token → List Token → Prop}

/-- One phrase after the other. -/
theorem Carries.seq (h : Carries w ks ms P) (h' : Carries v ms rs Q)
    (hks : ms.length + w ≤ ks.length + v) (hms : rs.length ≤ ms.length)
    (hS : ∀ b ts m r, m.length ≤ b + v + r.length → Fit r rs → P b ts m → Q b m r → S b ts r) :
    Carries w ks rs S := by
  intro ts hts
  obtain ⟨m, hm, hP⟩ := h ts hts
  obtain ⟨r, hr, hQ⟩ := h' m hm
  refine ⟨r, hr, fun b hb => ?_⟩
  have hl : ms.length ≤ b + v + rs.length := by omega
  refine hS b ts m r ?_ hr (hP b (by omega)) (hQ b hl)
  rwa [hm.length_eq, hr.length_eq]

/-- A phrase after a token. -/
theorem Carries.skip (h : Carries v ks rs P) (hw : w ≤ v + 1)
    (hS : ∀ b t us r, t.kind = k → P b us r → S b (t :: us) r) : Carries w (k :: ks) rs S := by
  intro ts hts
  obtain ⟨t, us, rfl, ht, -, hus⟩ := fit_cons.1 hts
  obtain ⟨r, hr, hP⟩ := h us hus
  refine ⟨r, hr, fun b hb => hS b t us r ht (hP b ?_)⟩
  rw [List.length_cons] at hb
  omega

/-- A phrase after two tokens. -/
theorem Carries.skip₂ {k' : Kind} (h : Carries v ks rs P) (hw : w ≤ v + 2)
    (hS : ∀ b t t' us r, t.kind = k → t'.kind = k' → P b us r → S b (t :: t' :: us) r) :
    Carries w (k :: k' :: ks) rs S := by
  refine Carries.skip (v := v + 1) (P := fun b us r => ∀ t, t.kind = k → S b (t :: us) r) ?_ hw
    fun _ t _ _ ht h => h t ht
  exact h.skip (Nat.le_refl _) fun b t' us r ht' hP t ht => hS b t t' us r ht ht' hP

/-- A phrase before a token. -/
theorem Carries.close (h : Carries w ks (k :: rs) P)
    (hS : ∀ b ts t r, t.kind = k → P b ts (t :: r) → S b ts r) : Carries w ks rs S := by
  intro ts hts
  obtain ⟨m, hm, hP⟩ := h ts hts
  obtain ⟨t, r, rfl, ht, -, hr⟩ := fit_cons.1 hm
  refine ⟨r, hr, fun b hb => hS b ts t r ht (hP b ?_)⟩
  rw [List.length_cons]
  omega

/-- A token alone. -/
theorem Carries.token (hS : ∀ b t r, t.kind = k → Numeric t → S b (t :: r) r) :
    Carries w (k :: rs) rs S := by
  intro ts hts
  obtain ⟨t, us, rfl, ht, hn, hus⟩ := fit_cons.1 hts
  exact ⟨us, hus, fun b _ => hS b t us ht hn⟩

/-- Nothing at all. -/
theorem Carries.empty (hS : ∀ b r, Fit r rs → S b r r) : Carries w rs rs S :=
  fun r hr => ⟨r, hr, fun b _ => hS b r hr⟩

/-- An expression around what takes at least one token. -/
theorem Carries.enclose (h : Carries 1 ks rs P) (hlt : rs.length < ks.length)
    (hS : ∀ b ts r, Fit r rs → P b ts r → S (b + 1) ts r) : Carries 0 ks rs S := by
  intro ts hts
  obtain ⟨r, hr, hP⟩ := h ts hts
  refine ⟨r, hr, fun b hb => ?_⟩
  obtain ⟨c, rfl⟩ : ∃ c, b = c + 1 := ⟨b - 1, by omega⟩
  exact hS c ts r hr (hP c (by omega))

theorem Fresh.head {m : List Token} (hr : Fresh rs) (h : Fit m rs) :
    ∀ t ∈ m.head?, t.kind ≠ .semicolon := by
  intro t ht
  have hkind : t.kind ∈ rs.head? := by
    rw [← h.1]
    simpa [kinds] using ⟨t, ht, rfl⟩
  exact (hr t.kind hkind).1

theorem fit_dropSemicolons {n : Nat} {m : List Token} (hr : Fresh rs)
    (h : Fit m (List.replicate n .semicolon ++ rs)) : Fit (Reads.dropSemicolons m) rs := by
  induction n generalizing m with
  | zero =>
    have h : Fit m rs := h
    rwa [Reads.dropSemicolons_of_head (hr.head h)]
  | succ n ih =>
    obtain ⟨t, m, rfl, ht, -, h⟩ := fit_cons.1 h
    rw [Reads.dropSemicolons_cons ht]
    exact ih h

theorem fit_dropSemicolon {n : Nat} {m : List Token} (hn : n ≤ 1) (hr : Fresh rs)
    (h : Fit m (List.replicate n .semicolon ++ rs)) : Fit (Reads.dropSemicolon m) rs := by
  obtain rfl | rfl : n = 0 ∨ n = 1 := by omega
  · have h : Fit m rs := h
    rwa [Reads.dropSemicolon_of_head (hr.head h)]
  · obtain ⟨t, m, rfl, ht, -, h⟩ := fit_cons.1 h
    rw [Reads.dropSemicolon_cons ht]
    exact h

/-- The semicolons after the expression of a statement. -/
theorem Carries.semicolons {n : Nat} {d : List Token → List Token}
    (h : Carries 0 ks (List.replicate n .semicolon ++ rs) P)
    (hd : ∀ m, Fit m (List.replicate n .semicolon ++ rs) → Fit (d m) rs)
    (hS : ∀ b ts m, P b ts m → S b ts (d m)) : Carries 0 ks rs S := by
  intro ts hts
  obtain ⟨m, hm, hP⟩ := h ts hts
  refine ⟨d m, hd m hm, fun b hb => hS b ts m (hP b ?_)⟩
  rw [List.length_append]
  omega

/-! ## Each rule of the grammar -/

theorem complete_statement (h : Complete .statement ks ms) (h' : Complete .program ms rs)
    (hs : Derives .statement ks ms) (hp : Derives .program ms rs) : Complete .program ks rs := by
  refine (h hp.fresh).seq h' hs.length_le hp.length_le ?_
  rintro b ts m r - - ⟨s, hs⟩ ⟨ss, hss⟩
  exact ⟨s :: ss, .cons hs hss⟩

/-- The expression of a statement, and the semicolons after it. -/
theorem carries_value {n : Nat} (h : Complete .expression ks (List.replicate n .semicolon ++ rs))
    (hm : Munched (List.replicate n .semicolon ++ rs)) (hf : Fresh rs) :
    Carries 0 ks rs fun b ts r => ∃ m v, r = Reads.dropSemicolons m ∧
      Reads.Expression b Kind.lowestPower ts m v :=
  (h hm (noElse_replicate hf.noElse)).semicolons (fun _ => fit_dropSemicolons hf)
    fun _ _ m ⟨v, hv⟩ => ⟨m, v, rfl, hv⟩

theorem complete_binding {n : Nat}
    (h : Complete .expression ks (List.replicate n .semicolon ++ rs))
    (hm : Munched (List.replicate n .semicolon ++ rs)) :
    Complete .statement (.letKey :: .ident :: .assign :: ks) rs := by
  intro hf
  refine Carries.skip (v := 0) (P := fun b us r => ∀ t, t.kind = .letKey →
    ∃ s, Reads.Statement (Reads.Expression b) (t :: us) r s) ?_ (by decide) fun _ t _ _ ht h => h t ht
  refine (carries_value h hm hf).skip₂ (by decide) ?_
  rintro b i a us r hi ha ⟨m, v, rfl, hv⟩ t ht
  exact ⟨_, .binding ht hi ha hv⟩

theorem complete_returning {n : Nat}
    (h : Complete .expression ks (List.replicate n .semicolon ++ rs))
    (hm : Munched (List.replicate n .semicolon ++ rs)) :
    Complete .statement (.returnKey :: ks) rs := by
  intro hf
  refine (carries_value h hm hf).skip (by decide) ?_
  rintro b t us r ht ⟨m, v, rfl, hv⟩
  exact ⟨_, .returning ht hv⟩

theorem complete_expression {n : Nat} (hn : n ≤ 1)
    (h : Complete .expression ks (List.replicate n .semicolon ++ rs))
    (hm : Munched (List.replicate n .semicolon ++ rs)) : Complete .statement ks rs := by
  intro hf
  refine (h hm (noElse_replicate hf.noElse)).semicolons (fun m => fit_dropSemicolon hn hf) ?_
  rintro b ts m ⟨v, hv⟩
  obtain ⟨t, us, rfl, ht⟩ := (exact_expression (Config.plain 0) b).starts hv
  have hk : t.kind ≠ .letKey ∧ t.kind ≠ .returnKey := by
    constructor <;> intro h <;> rw [h] at ht <;> cases ht
  exact ⟨_, .expression hk.1 hk.2 hv⟩

theorem complete_operation (h : Complete .unary ks ms) (h' : Complete .operands ms rs)
    (hu : Derives .unary ks ms) (ho : Derives .operands ms rs) : Complete .expression ks rs := by
  intro hm hr
  have hs := settled_of_munched hm hr
  have hlt := hu.length_add_least_le
  have hle := ho.length_le
  have hrow := (h (ho.settled_of_operands hs)).seq (h' hs) hlt hle
    (S := fun b ts r => ∃ e, Reads.Expression (b + 1) Kind.lowestPower ts r e) ?_
  · exact hrow.enclose (Nat.lt_of_le_of_lt hle hlt) fun _ _ _ _ h => h
  · rintro b ts m r hb hf ⟨e, he⟩ ⟨n, hc⟩
    obtain ⟨e', hx⟩ := hc.reads (b := b) e (by rw [hf.1]; exact hm) (by omega)
    exact ⟨e', he _ _ _ (by decide) hx⟩

theorem complete_operand (hk : k.isInfix = true) (h : Complete .unary ks ms)
    (h' : Complete .operands ms rs) (hu : Derives .unary ks ms) (ho : Derives .operands ms rs) :
    Complete .operands (k :: ks) rs := by
  intro hs ts hts
  obtain ⟨t, us, rfl, rfl, -, hus⟩ := fit_cons.1 hts
  obtain ⟨m, hm, hopen⟩ := h (ho.settled_of_operands hs) us hus
  obtain ⟨r, hr, hrow⟩ := h' hs m hm
  have hlt : ms.length < ks.length := hu.length_add_least_le
  refine ⟨r, hr, fun b hb => ?_⟩
  rw [List.length_cons] at hb
  obtain ⟨n, hc⟩ := hrow b (by omega)
  rw [← hm.length_eq, ← hus.length_eq] at hlt hopen
  exact ⟨n + 1, .cons hk hlt hopen hc⟩

theorem ends_of_settled {r : List Token} (hr : Settled rs) (h : Fit r rs) :
    Reads.Ends Kind.prefixPower r := by
  cases r with
  | nil => exact nofun
  | cons t r =>
    rintro _ ⟨⟩ ⟨hi | hl, hp⟩
    · exact Nat.lt_asymm hp (power_of_isInfix hi).2
    · exact (hr t.kind (by rw [← h.1]; rfl)).1 hl

theorem complete_prefixed (hk : k = .bang ∨ k = .minus) (h : Complete .unary ks rs)
    (hu : Derives .unary ks rs) : Complete .unary (k :: ks) rs := by
  intro hs
  have he : Carries 0 ks rs fun b ts r => ∃ e, Reads.Expression b Kind.prefixPower ts r e :=
    (h hs).enclose hu.length_add_least_le fun b ts r hf ⟨e, he⟩ =>
      ⟨e, he.reads (Nat.le_refl _) (ends_of_settled hs hf)⟩
  refine he.skip (by decide) ?_
  rintro b t us r rfl ⟨e, he⟩
  exact ⟨_, .of_start (.unary hk he)⟩

theorem complete_called (h : Complete .primary ks ms) (h' : Complete .calls ms rs)
    (hp : Derives .primary ks ms) (hc : Derives .calls ms rs) : Complete .unary ks rs := by
  intro hs
  have hr : NoElse rs := fun k hk => (hs k hk).2
  refine (h (hc.noElse_of_calls hr)).seq h' hp.length_add_least_le hc.length_le ?_
  rintro b ts m r - - ⟨left, hl⟩ hx
  obtain ⟨e, he⟩ := hx left
  exact ⟨e, fun power r' x hpow h => ⟨m, left, hl, he power r' x hpow h⟩⟩

theorem complete_call (h : Complete .arguments ks ms) (h' : Complete .calls ms rs)
    (ha : Derives .arguments ks ms) (hc : Derives .calls ms rs) :
    Complete .calls (.lparen :: ks) rs := by
  refine Carries.skip (v := 0) (P := fun b us r => ∀ t, t.kind = .lparen → ∀ left, ∃ e,
    ∀ power r' x, power ≤ Kind.prefixPower →
      Reads.Extension (Reads.Expression b) power e r r' x →
      Reads.Extension (Reads.Expression b) power left (t :: us) r' x) ?_ (by decide)
    fun _ t _ _ ht h => h t ht
  refine h.seq h' ha.length_le hc.length_le ?_
  rintro b us m r - - ⟨es, hes⟩ hx t ht left
  obtain ⟨e, he⟩ := hx (.call t.pos left es)
  refine ⟨e, fun power r' x hp hx => .call ht ?_ hes (he power r' x hp hx)⟩
  rw [ht]
  exact Nat.lt_of_le_of_lt hp (by decide)

theorem complete_argument (h : Complete .expression ks ms) (h' : Complete .moreArguments ms rs)
    (he : Derives .expression ks ms) (hm : Derives .moreArguments ms rs) :
    Complete .arguments ks rs := by
  obtain ⟨hmunch, hr⟩ := hm.munched_of_moreArguments
  refine (h hmunch hr).seq h' he.length_le hm.length_le ?_
  rintro b ts m r - - ⟨e, he⟩ ⟨es, hes⟩
  exact ⟨e :: es, .some he hes⟩

theorem complete_anotherArgument (h : Complete .expression ks ms)
    (h' : Complete .moreArguments ms rs) (he : Derives .expression ks ms)
    (hm : Derives .moreArguments ms rs) : Complete .moreArguments (.comma :: ks) rs := by
  obtain ⟨hmunch, hr⟩ := hm.munched_of_moreArguments
  refine Carries.skip (v := 0) (P := fun b us r => ∀ t, t.kind = .comma →
    ∃ es, Reads.MoreArguments (Reads.Expression b) (t :: us) r es) ?_ (by decide)
    fun _ t _ _ ht h => h t ht
  refine (h hmunch hr).seq h' he.length_le hm.length_le ?_
  rintro b us m r - - ⟨e, he⟩ ⟨es, hes⟩ t ht
  exact ⟨e :: es, .more ht he hes⟩

theorem complete_atom (hk : k ∈ [Kind.ident, .int, .string, .trueKey, .falseKey]) :
    Complete .primary (k :: rs) rs := by
  refine fun _ => .token fun b t r ht hn => ?_
  subst ht
  simp only [List.mem_cons, List.not_mem_nil, or_false] at hk
  rcases hk with hk | hk | hk | hk | hk
  · exact ⟨_, .identifier hk⟩
  · obtain ⟨v, hv, hle⟩ := hn hk
    exact ⟨_, .integer hk hv hle⟩
  · exact ⟨_, .string hk⟩
  · exact ⟨_, .boolean (.inl hk)⟩
  · exact ⟨_, .boolean (.inr hk)⟩

/-- An expression in front of a closing parenthesis. -/
theorem carries_closed (h : Complete .expression ks (.rparen :: rs)) :
    Carries 0 ks rs fun b ts r => ∃ p e, p.kind = .rparen ∧
      Reads.Expression b Kind.lowestPower ts (p :: r) e :=
  (h (munched_cons (by decide)) (noElse_cons nofun)).close
    fun _ _ p _ hp ⟨e, he⟩ => ⟨p, e, hp, he⟩

theorem complete_group (h : Complete .expression ks (.rparen :: rs)) :
    Complete .primary (.lparen :: ks) rs := by
  intro _
  refine (carries_closed h).skip (by decide) ?_
  rintro b t us r ht ⟨p, e, hp, he⟩
  exact ⟨e, .group ht he hp⟩

theorem complete_conditional {ls : List Kind} (h : Complete .expression ks (.rparen :: ls))
    (hb : Complete .block ls ms) (ha : Complete .alternative ms rs)
    (he : Derives .expression ks (.rparen :: ls)) (hdb : Derives .block ls ms)
    (hda : Derives .alternative ms rs) : Complete .primary (.ifKey :: .lparen :: ks) rs := by
  intro hr
  have hle := he.length_le
  rw [List.length_cons] at hle
  refine Carries.skip₂ (v := 0) (P := fun b us r => ∀ t l, t.kind = .ifKey → l.kind = .lparen →
    ∃ e, Reads.Start (Reads.Expression b) (t :: l :: us) r e) ?_ (by decide)
    fun _ t l _ _ ht hl h => h t l ht hl
  refine (carries_closed h).seq (hb.seq (ha hr) hdb.length_le hda.length_le
    (S := fun b us r => ∃ t vs ss m o, us = t :: vs ∧ t.kind = .lbrace ∧
      Reads.Body (Reads.Expression b) vs m ss ∧ Reads.Else (Reads.Expression b) m r o) ?_)
    (Nat.le_of_succ_le hle) (Nat.le_trans hda.length_le hdb.length_le) ?_
  · rintro b us m r - - ⟨t, vs, ss, rfl, ht, hss⟩ ⟨o, ho⟩
    exact ⟨t, vs, ss, m, o, rfl, ht, hss, ho⟩
  · rintro b us _ r - - ⟨p, e, hp, he⟩ ⟨c, vs, ss, m, o, rfl, hc, hss, ho⟩ t l ht hl
    exact ⟨_, .conditional ht hl he hp hc hss ho⟩

theorem complete_function (h : Complete .parameters ks ms) (hb : Complete .block ms rs)
    (hp : Derives .parameters ks ms) (hdb : Derives .block ms rs) :
    Complete .primary (.function :: .lparen :: ks) rs := by
  intro _
  refine Carries.skip₂ (v := 0) (P := fun b us r => ∀ t l, t.kind = .function → l.kind = .lparen →
    ∃ e, Reads.Start (Reads.Expression b) (t :: l :: us) r e) ?_ (by decide)
    fun _ t l _ _ ht hl h => h t l ht hl
  refine h.seq hb hp.length_le hdb.length_le ?_
  rintro b us _ r - - ⟨ns, hns⟩ ⟨c, vs, ss, rfl, hc, hss⟩ t l ht hl
  exact ⟨_, .function ht hl hns hc hss⟩

theorem complete_noAlternative : Complete .alternative rs rs := by
  refine fun hr => .empty fun b r hf => ⟨none, .none fun t ht => hr t.kind ?_⟩
  rw [← hf.1, List.head?_map]
  exact Option.mem_map_of_mem _ ht

theorem complete_alternative (h : Complete .block ks rs) :
    Complete .alternative (.elseKey :: ks) rs := by
  refine fun _ => Carries.skip h (by decide) ?_
  rintro b t _ r ht ⟨c, vs, ss, rfl, hc, hss⟩
  exact ⟨_, .some ht hc hss⟩

theorem complete_parameter (h : Complete .moreParameters ks rs) :
    Complete .parameters (.ident :: ks) rs := by
  refine Carries.skip h (by decide) ?_
  rintro b t us r ht ⟨ns, hns⟩
  exact ⟨_, .some ht hns⟩

theorem complete_anotherParameter (h : Complete .moreParameters ks rs) :
    Complete .moreParameters (.comma :: .ident :: ks) rs := by
  refine Carries.skip₂ h (by decide) ?_
  rintro b c t us r hc ht ⟨ns, hns⟩
  exact ⟨_, .more hc ht hns⟩

theorem complete_block (h : Complete .body ks rs) : Complete .block (.lbrace :: ks) rs := by
  refine Carries.skip h (by decide) ?_
  rintro b t us r ht ⟨ss, hss⟩
  exact ⟨t, us, ss, rfl, ht, hss⟩

theorem complete_inside (h : Complete .statement ks ms) (h' : Complete .body ms rs)
    (hs : Derives .statement ks ms) (hb : Derives .body ms rs) : Complete .body ks rs := by
  refine (h hb.fresh).seq h' hs.length_le hb.length_le ?_
  rintro b ts m r - - ⟨s, hs⟩ ⟨ss, hss⟩
  exact ⟨s :: ss, .cons hs hss⟩

end

namespace Derives

variable {x : Phrase} {ks rs : List Kind}

/-- **Whatever the grammar derives is read.** -/
theorem complete (h : Derives x ks rs) : Complete x ks rs := by
  induction h with
  | noStatement => exact .empty fun b r hr => ⟨[], fit_nil.1 hr ▸ .nil⟩
  | statement hs hp ihs ihp => exact complete_statement ihs ihp hs hp
  | binding n _ hm ih => exact complete_binding ih hm
  | returning n _ hm ih => exact complete_returning ih hm
  | expression n hn _ hm ih => exact complete_expression hn ih hm
  | operation hu ho ihu iho => exact complete_operation ihu iho hu ho
  | noOperand => exact fun _ => .empty fun _ _ _ => ⟨0, .nil⟩
  | operand hk hu ho ihu iho => exact complete_operand hk ihu iho hu ho
  | prefixed hk hu ih => exact complete_prefixed hk ih hu
  | called hp hc ihp ihc => exact complete_called ihp ihc hp hc
  | noCall => exact .empty fun _ _ _ left => ⟨left, fun _ _ _ _ h => h⟩
  | call ha hc iha ihc => exact complete_call iha ihc ha hc
  | noArgument => exact .token fun _ _ _ ht _ => ⟨[], .none ht⟩
  | argument he hm ihe ihm => exact complete_argument ihe ihm he hm
  | lastArgument => exact .token fun _ _ _ ht _ => ⟨[], .done ht⟩
  | anotherArgument he hm ihe ihm => exact complete_anotherArgument ihe ihm he hm
  | atom hk => exact complete_atom hk
  | group _ ih => exact complete_group ih
  | conditional he hb ha ihe ihb iha => exact complete_conditional ihe ihb iha he hb ha
  | function hp hb ihp ihb => exact complete_function ihp ihb hp hb
  | noAlternative => exact complete_noAlternative
  | alternative _ ih => exact complete_alternative ih
  | noParameter => exact .token fun _ _ _ ht _ => ⟨[], .none ht⟩
  | parameter _ ih => exact complete_parameter ih
  | lastParameter => exact .token fun _ _ _ ht _ => ⟨[], .done ht⟩
  | anotherParameter _ ih => exact complete_anotherParameter ih
  | block _ ih => exact complete_block ih
  | closed => exact .token fun _ _ _ ht _ => ⟨[], .closed ht⟩
  | unclosed => exact .empty fun b r hr => ⟨[], fit_nil.1 hr ▸ .unclosed⟩
  | inside hs hb ihs ihb => exact complete_inside ihs ihb hs hb

end Derives

/-! ## The parser -/

/-- **The parser accepts exactly the grammar.** With room for as many open expressions as there are
tokens, it reports nothing iff every number is the text of a word and the tokens are a program. -/
theorem errors_eq_nil_iff_derives (ts : List Token) (m : Int) (hts : ∀ t ∈ ts, t.kind ≠ .eof)
    (hm : (ts.length : Int) ≤ m) :
    (Parsed.ofTokens ts { maxNesting := m }).errors = [] ↔
      (∀ t ∈ ts, t.kind = .int → ∃ v, Numeral.parse? t.text = some v ∧ v ≤ Word.greatest) ∧
        Derives .program (ts.map (·.kind)) [] := by
  have hended : Ended ts := fun t ht => hts t (List.dropLast_subset ts ht)
  have hv := visible_eq_self hts
  constructor
  · intro h
    obtain ⟨ss, -, hr⟩ := (errors_ofTokens_eq_nil_iff hended).1 ⟨h, rfl⟩
    rw [hv] at hr
    obtain ⟨hd, hp⟩ := fits_program (grammatical_expression _) hr
    exact ⟨hp nofun, hd⟩
  · rintro ⟨hn, hd⟩
    obtain ⟨r, -, hr⟩ := hd.complete ts ⟨rfl, hn⟩
    obtain ⟨ss, hss⟩ := hr m.toNat (by simp; omega)
    rw [← hv] at hss
    exact ((errors_ofTokens_eq_nil_iff hended).2 ⟨ss, rfl, hss⟩).1

/-- The tokens of `-f(1) + x;`. -/
def negatedCall : List Token :=
  [⟨.minus, "-", .start⟩, ⟨.ident, "f", .start⟩, ⟨.lparen, "(", .start⟩, ⟨.int, "1", .start⟩,
    ⟨.rparen, ")", .start⟩, ⟨.plus, "+", .start⟩, ⟨.ident, "x", .start⟩, ⟨.semicolon, ";", .start⟩]

theorem errors_negatedCall : (Parsed.ofTokens negatedCall { maxNesting := 8 }).errors = [] := by
  refine (errors_eq_nil_iff_derives negatedCall 8 (by decide) (by decide)).2 ⟨?_, ?_⟩
  · have h : ∀ t ∈ negatedCall, t.kind = .int → t.text = "1" := by decide
    intro t ht hk
    rw [h t ht hk]
    exact ⟨1, by decide +kernel, by decide⟩
  · have hatom (k : Kind) (rs : List Kind) (hk : k ∈ [Kind.ident, .int, .string, .trueKey, .falseKey]) :
        Derives .unary (k :: rs) rs := .called (.atom hk) .noCall
    have harg : Derives .arguments [.int, .rparen, .plus, .ident, .semicolon]
        [.plus, .ident, .semicolon] :=
      .argument (.operation (hatom _ _ (by decide)) .noOperand) .lastArgument
    have hcall : Derives .unary [.ident, .lparen, .int, .rparen, .plus, .ident, .semicolon]
        [.plus, .ident, .semicolon] := .called (.atom (by decide)) (.call harg .noCall)
    have hsum := Derives.operation (.prefixed (.inr rfl) hcall)
      (.operand rfl (hatom .ident [.semicolon] (by decide)) .noOperand)
    exact .statement (.expression 1 (by decide) hsum (munched_cons (by decide))) .noStatement

end Scriptlet.Grammar
