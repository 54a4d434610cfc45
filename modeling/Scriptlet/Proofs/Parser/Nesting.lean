import Scriptlet.Proofs.Parser.Congruence
import Scriptlet.Proofs.Parser.Footing

/-!
# The limit on nesting

A parse that is not stopped by its limit on nesting does not depend on it: with a higher limit it
gives the same. Whether a parse was stopped is seen in its diagnostics, since a statement that fails
inside another is reported too, and no diagnostic is taken back. And a limit above the number of
tokens stops no parse, since every expression inside another starts at a later token.

* `Felt`: a parse has been stopped by the limit, or has reported that it was.
* `sameUnlessFelt_expression`: with more room, an expression is parsed to the same, unless the limit
  is felt.
* `roomFor`: the footing of a parse with few tokens left, where the limit has not been felt.
* `ofTokens_maxNesting`: what a parse gives with a higher limit, and with one above the number of
  tokens.
-/

namespace Scriptlet

/-- Whether the complaint is about the limit on nesting. -/
def Complaint.isTooDeep : Complaint → Bool
  | .tooDeep _ => true
  | _ => false

namespace Parser

open Syntax (Node)
open Token (Kind)

/-! ## A higher limit -/

/-- The limit on nesting has been felt: a diagnostic says so that was reported, or that is on its
way to the statement that it belongs to. -/
def Felt {α : Type} (r : Except Diagnostic α × State) : Prop :=
  (∃ d ∈ r.2.errors, d.complaint.isTooDeep) ∨ ∃ d, r.1 = .error d ∧ d.complaint.isTooDeep

/-- The second parser does what the first one does, unless that feels the limit. -/
def SameUnlessFelt (α : Type) (p p' : Parser α) : Prop :=
  Moving p ∧ ∀ s, Felt (p s) ∨ p' s = p s

section

variable {α β : Type} {s s' : State} {p p' : Parser α}

theorem felt_ok {a : α} : Felt (.ok a, s) ↔ ∃ d ∈ s.errors, d.complaint.isTooDeep := by
  simp [Felt]

theorem felt_error {d : Diagnostic} : Felt ((.error d, s) : Except Diagnostic α × State) ↔
    (∃ d' ∈ s.errors, d'.complaint.isTooDeep) ∨ d.complaint.isTooDeep := by
  simp [Felt]

/-- What was reported stays reported. -/
theorem Felt.of_moves {r : Except Diagnostic α × State}
    (h : ∃ d ∈ s.errors, d.complaint.isTooDeep) (hm : Moves s r.2) : Felt r := by
  obtain ⟨d, hd, hdeep⟩ := h
  exact .inl ⟨d, hm.errors_grow.subset hd, hdeep⟩

theorem Felt.bind {f : α → Parser β} (hf : ∀ a, Moving (f a)) (h : Felt (p s)) :
    Felt ((p >>= f) s) := by
  rw [bind_run]
  rcases hrun : p s with ⟨d | a, s₁⟩
  · rw [hrun, felt_error] at h
    exact felt_error.2 h
  · rw [hrun, felt_ok] at h
    exact .of_moves h ((hf a).moves s₁)

theorem sameUnlessFelt_self (p : Parser α) [hp : Moving p] : SameUnlessFelt α p p :=
  ⟨hp, fun _ => .inr rfl⟩

theorem SameUnlessFelt.seq {f f' : α → Parser β} (hp : SameUnlessFelt α p p')
    (hf : ∀ a, SameUnlessFelt β (f a) (f' a)) : SameUnlessFelt β (p >>= f) (p' >>= f') := by
  have hmoving := fun a => (hf a).1
  refine ⟨hp.1.bind hmoving, fun s => ?_⟩
  rcases hp.2 s with hfelt | hsame
  · exact .inl (hfelt.bind hmoving)
  · rw [bind_run, bind_run, hsame]
    rcases p s with ⟨d | a, s₁⟩
    · exact .inr rfl
    · exact (hf a).2 s₁

theorem SameUnlessFelt.nested (hp : SameUnlessFelt α p p') :
    SameUnlessFelt α (nested p) (nested p') := by
  obtain ⟨hmoving, hp⟩ := hp
  refine ⟨inferInstance, fun s => ?_⟩
  rcases hp { s with nesting := s.nesting + 1 } with hfelt | hsame
  · exact .inl hfelt
  · refine .inr ?_
    unfold Parser.nested ExceptT.mk
    dsimp only
    rw [hsame]

theorem SameUnlessFelt.traced (cfg : Config) (rule : Rule) (hp : SameUnlessFelt α p p') :
    SameUnlessFelt α (traced cfg rule p) (traced cfg rule p') := by
  unfold Parser.traced
  split
  · obtain ⟨hmoving, hp⟩ := hp
    refine ⟨⟨fun s => ?_⟩, fun s => ?_⟩
    · exact ((Moves.refl.count _ _ _).trans (hmoving.moves _)).count _ _ _
    rcases hp { s with
      traceLevel := s.traceLevel + 1, trace := ⟨s.traceLevel, true, rule⟩ :: s.trace }
      with hfelt | hsame
    · exact .inl hfelt
    · refine .inr ?_
      unfold ExceptT.mk
      dsimp only
      rw [hsame]
  · exact hp

/-- A statement that is stopped by the limit reports it. -/
theorem SameUnlessFelt.recovering (hp : SameUnlessFelt α p p') :
    SameUnlessFelt (Option α) (recovering p) (recovering p') := by
  obtain ⟨hmoving, hp⟩ := hp
  refine ⟨inferInstance, fun s => ?_⟩
  rw [recovering_run, recovering_run]
  rcases hp s with hfelt | hsame
  · refine .inl ?_
    rcases hrun : p s with ⟨d | a, s₁⟩
    · rw [hrun, felt_error] at hfelt
      have hreported : ∃ d' ∈ (s₁.report d).errors, d'.complaint.isTooDeep := by
        rcases hfelt with ⟨d', hd', hdeep⟩ | hdeep
        · exact ⟨d', List.mem_append_left _ hd', hdeep⟩
        · exact ⟨d, List.mem_append_right _ (List.mem_singleton.2 rfl), hdeep⟩
      exact .of_moves hreported (Moves.refl.synchronize s.braceDepth)
    · rw [hrun, felt_ok] at hfelt
      exact felt_ok.2 hfelt
  · rw [hsame]
    exact .inr rfl

theorem SameUnlessFelt.iterate {step step' : α → Parser (Option α)} [Ending step] [Ending step']
    (hstep : ∀ a, SameUnlessFelt (Option α) (step a) (step' a)) (a : α) :
    SameUnlessFelt α (iterate step a) (iterate step' a) := by
  have hmoving : ∀ a, Moving (step a) := fun a => (hstep a).1
  have hround : ∀ a, Parser.iterate step' a = step' a >>= again step' a := iterate_eq
  refine ⟨inferInstance, fun s => And.right (a := Moves s (Parser.iterate step a s).2) ?_⟩
  -- a round that feels the limit reports it, and the rounds after it only move
  refine iterate_induction
    (P := fun a s r => Moves s r.2 ∧ (Felt r ∨ Parser.iterate step' a s = r)) ?_ ?_ ?_ a s
  · intro a s s' h
    have hmoves := (hmoving a).moves s
    have hsame := (hstep a).2 s
    rw [h] at hmoves hsame
    refine ⟨hmoves, ?_⟩
    rcases hsame with hfelt | hsame
    · exact .inl (felt_ok.2 (felt_ok.1 hfelt))
    · rw [hround, bind_run, hsame]
      exact .inr rfl
  · intro a s d s' h
    have hmoves := (hmoving a).moves s
    have hsame := (hstep a).2 s
    rw [h] at hmoves hsame
    refine ⟨hmoves, ?_⟩
    rcases hsame with hfelt | hsame
    · exact .inl (felt_error.2 (felt_error.1 hfelt))
    · rw [hround, bind_run, hsame]
      exact .inr rfl
  · intro a a₁ s s₁ r h ⟨hmoves₁, ih⟩
    have hmoves := (hmoving a).moves s
    have hsame := (hstep a).2 s
    rw [h] at hmoves hsame
    refine ⟨hmoves.trans hmoves₁, ?_⟩
    rcases hsame with hfelt | hsame
    · exact .inl (.of_moves (felt_ok.1 hfelt) hmoves₁)
    · rw [hround, bind_run, hsame]
      exact ih

end

section

variable (cfg : Config) (m m' : Int)

theorem congruence_sameUnlessFelt :
    Congruence { cfg with maxNesting := m } { cfg with maxNesting := m' } SameUnlessFelt where
  starter? := rfl
  continuer? := rfl
  give _ := sameUnlessFelt_self _
  fail _ := sameUnlessFelt_self _
  current := sameUnlessFelt_self _
  next := sameUnlessFelt_self _
  move := sameUnlessFelt_self _
  skip := sameUnlessFelt_self _
  braces hf := (sameUnlessFelt_self get).seq fun s => hf s.braceDepth
  seq hp hf := hp.seq hf
  rule r {_ _} hp := hp.traced { cfg with maxNesting := m } r
  attempt hp := hp.recovering
  loop hstep a := .iterate hstep a

/-- **With more room an expression is parsed to the same**, unless the limit is felt. -/
theorem sameUnlessFelt_expression (budget : Nat) : ∀ budget', budget ≤ budget' → ∀ power,
    SameUnlessFelt Node (expression { cfg with maxNesting := m } budget power)
      (expression { cfg with maxNesting := m' } budget' power) := by
  induction budget with
  | zero => exact fun _ _ power => ⟨inferInstance, fun s => .inl (.inr ⟨_, rfl, rfl⟩)⟩
  | succ budget ih =>
    intro budget' hle power
    obtain ⟨budget', rfl⟩ := Nat.exists_eq_add_one.2 (Nat.lt_of_lt_of_le (Nat.succ_pos _) hle)
    have hinside := ih budget' (Nat.le_of_succ_le_succ hle)
    exact ((congruence_sameUnlessFelt cfg m m').holds_expressionWith hinside power).nested

/-- **A parse that does not feel its limit is the same with a higher one.** -/
theorem ofTokens_of_unfelt {m m' : Int} (ts : List Token) (hm : m ≤ m')
    (h : ∀ d ∈ (Parsed.ofTokens ts { cfg with maxNesting := m }).errors,
      d.complaint.isTooDeep = false) :
    Parsed.ofTokens ts { cfg with maxNesting := m' } =
      Parsed.ofTokens ts { cfg with maxNesting := m } := by
  have hsame := (congruence_sameUnlessFelt cfg m m').holds_programWith
    (sameUnlessFelt_expression cfg m m' m.toNat m'.toNat (Int.toNat_le_toNat hm))
  obtain ⟨s, hrun, herrors⟩ := parseProgram_eq_ok { cfg with maxNesting := m } ts
  have hprogram : parseProgram { cfg with maxNesting := m' } (State.ofTokens ts) =
      parseProgram { cfg with maxNesting := m } (State.ofTokens ts) := by
    rw [parseProgram_ofTokens, parseProgram_ofTokens]
    rcases hsame.2 (State.ofTokens ts) with hfelt | heq
    · rw [← parseProgram_ofTokens { cfg with maxNesting := m }, hrun, felt_ok] at hfelt
      obtain ⟨d, hd, hdeep⟩ := hfelt
      rw [h d (herrors ▸ hd)] at hdeep
      cases hdeep
    · exact heq
  unfold Parsed.ofTokens
  rw [hprogram]

end

/-! ## A limit above the number of tokens -/

theorem State.left_advance_le (s : State) : s.advance.left ≤ s.left := by
  by_cases hk : s.cur.kind = .eof
  · unfold left
    rw [if_pos hk]
    cases hr : s.rest with
    | nil => simp [advance, peek, hr, Token.eofAt]
    | cons t ts =>
      simp only [advance, hr, List.tail_cons, List.length_cons]
      split <;> omega
  · exact Nat.le_of_lt (Moves.refl.left_advance_lt hk)

/-- The limit has not been felt, and there are at most `k` tokens from the current one on. -/
def HasRoom (k : Nat) (s : State) : Prop :=
  s.left ≤ k ∧ ∀ d ∈ s.errors, d.complaint.isTooDeep = false

/-- The footing of a parse with at most `k` tokens left that has not felt its limit. -/
def roomFor (k : Nat) : Footing where
  ready := HasRoom k
  start := HasRoom k
  failed d s := d.complaint.isTooDeep = false ∧ HasRoom k s.advance
  starts h := h
  moved {s} h := ⟨Nat.le_trans s.left_advance_le h.1, h.2⟩
  unexpected _ h := ⟨rfl, h⟩
  ready_counted _ _ _ h := h
  start_counted _ _ _ h := h
  failed_counted _ _ _ h := h

theorem roomFor_bareStatement (cfg : Config) {k : Nat} {e : Nat → Parser Node}
    (he : ∀ power, (roomFor k).Leads (roomFor k).start (e power)) :
    (roomFor k).Recovers (bareStatement cfg e) := by
  refine (Footing.leads_bareStatement he).recovers fun d s ⟨hd, hleft, hs⟩ => ⟨hleft, ?_⟩
  intro d' hd'
  rcases List.mem_append.1 hd' with hd' | hd'
  · exact hs d' hd'
  · rw [List.mem_singleton.1 hd']
    exact hd

theorem roomFor_mono {α : Type} {k : Nat} {r : Except Diagnostic α × State}
    (h : (roomFor k).Ends r) : (roomFor (k + 1)).Ends r := by
  rcases r with ⟨d | a, s⟩
  · obtain ⟨hd, hleft, hs⟩ := h
    exact ⟨hd, Nat.le_succ_of_le hleft, hs⟩
  · obtain ⟨hleft, hs⟩ := h
    exact ⟨Nat.le_succ_of_le hleft, hs⟩

theorem starter?_eof (cfg : Config) : cfg.starter? .eof = none := by
  unfold Config.starter?
  split <;> rfl

/-- **With more room than there are tokens an expression does not feel the limit**: the expressions
inside it start behind its first token. -/
theorem roomFor_expression (cfg : Config) (k : Nat) : ∀ power,
    (roomFor k).Leads (roomFor k).start (expression cfg (k + 1) power) := by
  induction k with
  | zero =>
    intro power
    refine Footing.Leads.counted_start (counts_nested _) fun s hs => ?_
    refine Footing.ends_expressionWith_of_refused power ⟨rfl, (roomFor 0).moved hs⟩ ?_
    rw [State.cur_eof_of_left (Nat.le_zero.1 hs.1)]
    exact starter?_eof cfg
  | succ k ih =>
    intro power
    refine Footing.Leads.counted_start (counts_nested _) fun s hs => ?_
    by_cases hstart : cfg.starter? s.cur.kind = none
    · exact Footing.ends_expressionWith_of_refused power ⟨rfl, (roomFor _).moved hs⟩ hstart
    · have hkind : s.cur.kind ≠ .eof := fun heof => hstart (heof ▸ starter?_eof cfg)
      have hless : s.advance.left < s.left := Moves.refl.left_advance_lt hkind
      have hnext : HasRoom k s.advance := ⟨Nat.le_of_lt_succ (Nat.lt_of_lt_of_le hless hs.1), hs.2⟩
      exact roomFor_mono (Footing.ends_expressionWith ih (roomFor_bareStatement cfg ih) power
        hnext ⟨rfl, hnext⟩ hstart)

theorem unfelt_of_length_lt (cfg : Config) (ts : List Token) (h : ts.length < cfg.maxNesting) :
    ∀ d ∈ (Parsed.ofTokens ts cfg).errors, d.complaint.isTooDeep = false := by
  obtain ⟨k, hk⟩ : ∃ k, cfg.maxNesting.toNat = k + 1 := Nat.exists_eq_add_one.2 (by omega)
  have hleft : (State.ofTokens ts).left ≤ ts.length := by
    cases ts with
    | nil => exact Nat.le_refl 0
    | cons t ts => exact State.left_le _
  have hstart : HasRoom k (State.ofTokens ts) := ⟨by omega, fun _ hd => absurd hd List.not_mem_nil⟩
  have hstatement := roomFor_bareStatement cfg (roomFor_expression cfg k)
  obtain ⟨s, hnext, herrors⟩ := Footing.exists_next_ofTokens (hk ▸ hstatement) hstart
  rw [← herrors]
  exact hnext.2

/-- **Raising the limit on nesting changes no parse that did not feel it**, and a limit above the
number of tokens is not felt. -/
theorem ofTokens_maxNesting (ts : List Token) (cfg : Config) {m m' : Int} (hm : m ≤ m') :
    ((∀ d ∈ (Parsed.ofTokens ts { cfg with maxNesting := m }).errors,
        d.complaint.isTooDeep = false) →
      Parsed.ofTokens ts { cfg with maxNesting := m' } =
        Parsed.ofTokens ts { cfg with maxNesting := m }) ∧
    (ts.length < m' →
      ∀ d ∈ (Parsed.ofTokens ts { cfg with maxNesting := m' }).errors,
        d.complaint.isTooDeep = false) :=
  ⟨ofTokens_of_unfelt cfg ts hm, unfelt_of_length_lt { cfg with maxNesting := m' } ts⟩

/-- The tokens of `fn() { - } - a`: a statement that fails inside an expression, three expressions
deep. -/
def faultyFunction : List Token :=
  [⟨.function, "fn", ⟨1, 1⟩⟩, ⟨.lparen, "(", ⟨1, 3⟩⟩, ⟨.rparen, ")", ⟨1, 4⟩⟩,
    ⟨.lbrace, "\x7b", ⟨1, 6⟩⟩, ⟨.minus, "-", ⟨1, 8⟩⟩, ⟨.rbrace, "\x7d", ⟨1, 10⟩⟩,
    ⟨.minus, "-", ⟨1, 12⟩⟩, ⟨.ident, "a", ⟨1, 14⟩⟩, .eofAt ⟨1, 15⟩]

theorem ofTokens_faultyFunction :
    (∃ d ∈ (Parsed.ofTokens faultyFunction { maxNesting := 2 }).errors, d.complaint.isTooDeep) ∧
    (∀ d ∈ (Parsed.ofTokens faultyFunction { maxNesting := 3 }).errors,
      d.complaint.isTooDeep = false) ∧
    Parsed.ofTokens faultyFunction { maxNesting := 12 } =
      Parsed.ofTokens faultyFunction { maxNesting := 3 } ∧
    ∀ d ∈ (Parsed.ofTokens faultyFunction { maxNesting := 12 }).errors,
      d.complaint.isTooDeep = false := by
  have hunfelt : ∀ d ∈ (Parsed.ofTokens faultyFunction { maxNesting := 3 }).errors,
      d.complaint.isTooDeep = false := by decide +kernel
  have hle : (3 : Int) ≤ 12 := by decide
  obtain ⟨hsame, hfree⟩ := ofTokens_maxNesting faultyFunction {} hle
  exact ⟨by decide +kernel, hunfelt, hsame hunfelt, hfree (by decide)⟩

end Parser

end Scriptlet
