import Scriptlet.Proofs.Grammar.Sound
import Scriptlet.Proofs.Parser.Exact

/-!
# Rows of infix operators

A row of operands with infix operators between them is grouped by the ranks of the operators
alone: the operator that binds least is on top, and of several such the last one. The parser builds
the same tree from left to right. Inside an operand it goes on with operators that bind tighter, and
there are five powers of infix operators; so the room that it needs for open expressions does not
depend on the length of the row.

* `Operand`, `Link`: operands, and operators with the operand to their right.
* `grouped`: the tree of a row, split at the last operator that binds least.
* `extension_links`: the parser extends what is on the left of a row to that tree.
* `ofTokens_row`: a whole row is parsed without diagnostics.
-/

namespace Scriptlet.Parser

open Syntax (Node)
open Token (Kind)
open Reads

/-! ## Operands -/

/-- The tree of a token that is an operand by itself: an identifier or a literal. -/
def leaf? (t : Token) : Option Node :=
  match t.kind with
  | .ident => some (.identifier t.pos t.text)
  | .int => (Numeral.parse? t.text).bind fun v =>
    if v ≤ Word.greatest then some (.integer t.pos v) else none
  | .string => some (.string t.pos t.text)
  | .trueKey => some (.boolean t.pos true)
  | .falseKey => some (.boolean t.pos false)
  | _ => none

/-- An operand: an identifier or a literal, with prefix operators before it. -/
structure Operand where
  signs : List Token
  atom : Token
  leaf : Node
  signs_kind : ∀ t ∈ signs, t.kind = .bang ∨ t.kind = .minus
  leaf_eq : leaf? atom = some leaf

namespace Operand

/-- The tokens of an operand. -/
def tokens (o : Operand) : List Token := o.signs ++ [o.atom]

/-- The place of an operand: that of its first token. -/
def pos (o : Operand) : Pos := (o.signs.headD o.atom).pos

/-- The tree of an operand. The prefix operator nearest to the atom is innermost. -/
def tree (o : Operand) : Node := o.signs.foldr (fun t e => .unary t.pos t.text e) o.leaf

end Operand

theorem start_leaf {t : Token} {e : Node} (h : leaf? t = some e) (E : Nat → Reading Node)
    (r : List Token) : Start E (t :: r) r e := by
  unfold leaf? at h
  split at h
  · rename_i hk
    cases h
    exact .identifier hk
  · rename_i hk
    obtain ⟨v, hv, h⟩ := Option.bind_eq_some_iff.1 h
    split at h
    · rename_i hle
      cases h
      exact .integer hk hv hle
    · cases h
  · rename_i hk
    cases h
    exact .string hk
  · rename_i hk
    cases h
    have hstart := Start.boolean (E := E) (r := r) (.inl hk)
    rwa [hk] at hstart
  · rename_i hk
    cases h
    have hstart := Start.boolean (E := E) (r := r) (.inr hk)
    rwa [hk] at hstart
  · cases h

theorem starter?_leaf {t : Token} {e : Node} (h : leaf? t = some e) :
    (starter? t.kind).isSome := by
  obtain ⟨_, _, htokens, hstarter⟩ := start_starts (start_leaf h (fun _ _ _ _ => False) [])
  cases htokens
  exact hstarter

/-- What continues an expression that binds tighter continues one that binds less tightly. -/
theorem Reads.Ends.mono {p q : Nat} {m : List Token} (h : Ends p m) (hpq : p ≤ q) : Ends q m :=
  fun t ht hcontinues => h t ht ⟨hcontinues.1, Nat.lt_of_le_of_lt hpq hcontinues.2⟩

/-- Prefix operators and what they are before are read up to what comes after, unless that is a call.
Each of them opens one more expression. -/
theorem opens_signs {atom : Token} {leaf : Node} (hleaf : leaf? atom = some leaf)
    {m : List Token} (hm : Ends Kind.prefixPower m) :
    ∀ (signs : List Token) (b : Nat), (∀ t ∈ signs, t.kind = .bang ∨ t.kind = .minus) →
      signs.length ≤ b →
      Opens b (signs ++ atom :: m) m (signs.foldr (fun t e => .unary t.pos t.text e) leaf) := by
  intro signs
  induction signs with
  | nil =>
    intro b _ _
    exact Opens.of_start (start_leaf hleaf _ m)
  | cons t signs ih =>
    intro b hkinds hb
    rw [List.length_cons] at hb
    obtain ⟨c, rfl⟩ : ∃ c, b = c + 1 := ⟨b - 1, by omega⟩
    have hinner := ih c (fun u hu => hkinds u (List.mem_cons_of_mem _ hu)) (by omega)
    have hread := hinner.reads (Nat.le_refl Kind.prefixPower) hm
    exact Opens.of_start (.unary (hkinds t List.mem_cons_self) hread)

theorem Operand.opens (o : Operand) {m : List Token} (hm : Ends Kind.prefixPower m) {b : Nat}
    (hb : o.signs.length ≤ b) : Opens b (o.tokens ++ m) m o.tree := by
  have hopens := opens_signs o.leaf_eq hm o.signs b o.signs_kind hb
  rwa [tokens, List.append_assoc]

/-! ## Rows -/

/-- The infix operators, from those that bind least to the one that binds tightest. -/
def ranks : List (List Kind) :=
  [[.eq, .notEq], [.lt, .gt, .ltEq, .gtEq], [.plus, .minus], [.asterisk, .slash], [.hat]]

/-- An infix operator and the operand to its right. -/
structure Link where
  operator : Token
  operand : Operand
  ranked : operator.kind ∈ ranks.flatten

namespace Link

/-- How tightly the operator of a link binds, among all infix operators. -/
def rank (k : Link) : Nat := ranks.findIdx (·.contains k.operator.kind)

/-- How tightly the operator of a link binds what is on its left. -/
def power (k : Link) : Nat := k.operator.kind.power

/-- The tokens of a link. -/
def tokens (k : Link) : List Token := k.operator :: k.operand.tokens

theorem isInfix (k : Link) : k.operator.kind.isInfix = true :=
  have hall : ∀ kind ∈ ranks.flatten, kind.isInfix = true := by decide
  hall _ k.ranked

theorem power_range (k : Link) : Kind.lowestPower < k.power ∧ k.power < Kind.prefixPower :=
  Grammar.power_of_isInfix k.isInfix

/-- The powers of infix operators are in the order of their ranks. -/
theorem power_eq (k : Link) : k.power = k.rank + 2 :=
  have hall : ∀ kind ∈ ranks.flatten, kind.power = ranks.findIdx (·.contains kind) + 2 := by decide
  hall _ k.ranked

end Link

/-- A row of links split at the link that binds least, the last one if there are several. -/
structure Split (links : List Link) where
  before : List Link
  low : Link
  after : List Link
  eq : links = before ++ low :: after
  before_le : ∀ k ∈ before, low.rank ≤ k.rank
  after_lt : ∀ k ∈ after, low.rank < k.rank

namespace Split

variable {links : List Link} (s : Split links)

theorem mem_iff {k : Link} : k ∈ links ↔ k ∈ s.before ∨ k = s.low ∨ k ∈ s.after := by
  have heq := congrArg (k ∈ ·) s.eq
  simpa using heq

theorem low_le {k : Link} (hk : k ∈ links) : s.low.rank ≤ k.rank := by
  rcases s.mem_iff.1 hk with hk | rfl | hk
  · exact s.before_le k hk
  · exact Nat.le_refl _
  · exact Nat.le_of_lt (s.after_lt k hk)

theorem length_eq : links.length = s.before.length + s.after.length + 1 := by
  have hlength := congrArg List.length s.eq
  rw [List.length_append, List.length_cons] at hlength
  omega

/-- One more link to the left that binds less than all others. -/
def atFirst {k : Link} (h : k.rank < s.low.rank) : Split (k :: links) where
  before := []
  low := k
  after := links
  eq := rfl
  before_le := List.forall_mem_nil _
  after_lt _ hl := Nat.lt_of_lt_of_le h (s.low_le hl)

/-- One more link to the left that some other one binds no tighter than. -/
def behind {k : Link} (h : s.low.rank ≤ k.rank) : Split (k :: links) where
  before := k :: s.before
  low := s.low
  after := s.after
  eq := congrArg (k :: ·) s.eq
  before_le := List.forall_mem_cons.2 ⟨h, s.before_le⟩
  after_lt := s.after_lt

end Split

/-- Finds where to split a row. -/
def lowest (k : Link) : (ks : List Link) → Split (k :: ks)
  | [] => ⟨[], k, [], rfl, List.forall_mem_nil _, List.forall_mem_nil _⟩
  | l :: ls =>
    let s := lowest l ls
    if h : k.rank < s.low.rank then s.atFirst h else s.behind (Nat.le_of_not_lt h)

/-- There is only one place to split a row at. -/
theorem Split.unique {links : List Link} (s t : Split links) : s = t := by
  obtain ⟨before, low, after, rfl, hbefore, hafter⟩ := s
  obtain ⟨before', low', after', heq, hbefore', hafter'⟩ := t
  rcases List.append_eq_append_iff.1 heq with ⟨mid, rfl, hmid⟩ | ⟨mid, rfl, hmid⟩
  · cases mid with
    | nil =>
      obtain ⟨rfl, rfl⟩ := List.cons.inj hmid
      simp
    | cons k mid =>
      -- one operator is to the left of the other: it binds both less tightly and no less tightly
      obtain ⟨rfl, rfl⟩ := List.cons.inj hmid
      have hle := hbefore' low (by simp)
      have hlt := hafter low' (by simp)
      omega
  · cases mid with
    | nil =>
      obtain ⟨rfl, rfl⟩ := List.cons.inj hmid
      simp
    | cons k mid =>
      obtain ⟨rfl, rfl⟩ := List.cons.inj hmid
      have hle := hbefore low' (by simp)
      have hlt := hafter' low (by simp)
      omega

/-- The tree of a row: `left` with the links that come after it. The operator that binds least is on
top, the last one if there are several, over the trees of what is to its left and to its right. -/
def grouped (left : Node) : List Link → Node
  | [] => left
  | k :: ks =>
    let s := lowest k ks
    .binary s.low.operator.pos (grouped left s.before) s.low.operator.text
      (grouped s.low.operand.tree s.after)
termination_by links => links.length
decreasing_by
  · have := (lowest k ks).length_eq
    omega
  · have := (lowest k ks).length_eq
    omega

/-- The links of a row, as tokens. -/
def rowTokens (links : List Link) : List Token := links.flatMap Link.tokens

/-- The tree of a row is over the place that it splits at, wherever that was found. -/
theorem grouped_split (left : Node) {links : List Link} (s : Split links) :
    grouped left links = .binary s.low.operator.pos (grouped left s.before) s.low.operator.text
      (grouped s.low.operand.tree s.after) := by
  cases links with
  | nil =>
    have := s.length_eq
    rw [List.length_nil] at this
    omega
  | cons k ks => rw [grouped, s.unique (lowest k ks)]

theorem exists_split {links : List Link} (h : links ≠ []) : Nonempty (Split links) := by
  cases links with
  | nil => exact absurd rfl h
  | cons k ks => exact ⟨lowest k ks⟩

/-! ## Reading a row -/

theorem ends_rowTokens {links : List Link} {m : List Token} {power : Nat}
    (hpower : ∀ k ∈ links, k.power ≤ power) (hm : Ends power m) :
    Ends power (rowTokens links ++ m) := by
  cases links with
  | nil => exact hm
  | cons k ks =>
    rintro t ⟨⟩ hcontinues
    have := hpower k List.mem_cons_self
    exact absurd hcontinues.2 (Nat.not_lt.2 this)

/-- **What is on the left of a row is extended to the tree of the row.**

The links bind tighter than `power`, so that the parser takes them all, and what comes after them
continues none of their operands. Each power that the operands inside a row go down by leaves less
room, and there is enough of it above the prefix operators of every operand. -/
theorem extension_links (links : List Link) {b power : Nat} {left x : Node} {m r : List Token}
    (hpower : ∀ k ∈ links, power < k.power)
    (hroom : ∀ k ∈ links, 6 + k.operand.signs.length ≤ b + power)
    (hends : ∀ k ∈ links, Ends k.power m)
    (hx : Extension (Expression b) power (grouped left links) m r x) :
    Extension (Expression b) power left (rowTokens links ++ m) r x := by
  induction hn : links.length using Nat.strongRecOn generalizing links b power left x m r with
  | ind n ih =>
    by_cases hlinks : links = []
    · subst hlinks
      rwa [grouped] at hx
    obtain ⟨s⟩ := exists_split hlinks
    rw [grouped_split left s] at hx
    have hlength := s.length_eq
    have hbefore : ∀ k ∈ s.before, k ∈ links := fun k hk => s.mem_iff.2 (.inl hk)
    have hlow : s.low ∈ links := s.mem_iff.2 (.inr (.inl rfl))
    have hafter : ∀ k ∈ s.after, k ∈ links := fun k hk => s.mem_iff.2 (.inr (.inr hk))
    have hbound : s.low.power < 7 := s.low.power_range.2
    have hlowPower := hpower s.low hlow
    have hafterPower : ∀ k ∈ s.after, s.low.power < k.power := by
      intro k hk
      have := s.after_lt k hk
      rw [s.low.power_eq, k.power_eq]
      omega
    have hbeforePower : ∀ k ∈ s.before, s.low.power ≤ k.power := by
      intro k hk
      have := s.before_le k hk
      rw [s.low.power_eq, k.power_eq]
      omega
    have hlowRoom := hroom s.low hlow
    obtain ⟨c, rfl⟩ : ∃ c, b = c + 1 := ⟨b - 1, by omega⟩
    -- the operand to the right of the split takes all that is behind it
    have hright : Expression (c + 1) s.low.power (s.low.operand.tokens ++ (rowTokens s.after ++ m)) m
        (grouped s.low.operand.tree s.after) := by
      have hstop : Ends Kind.prefixPower (rowTokens s.after ++ m) :=
        ends_rowTokens (fun k _ => Nat.le_of_lt k.power_range.2)
          ((hends _ hlow).mono (Nat.le_of_lt hbound))
      have hopens := s.low.operand.opens hstop (b := c) (by omega)
      have hrest : Extension (Expression c) s.low.power s.low.operand.tree
          (rowTokens s.after ++ m) m (grouped s.low.operand.tree s.after) := by
        refine ih s.after.length (by omega) s.after hafterPower ?_ ?_ (.done (hends _ hlow)) rfl
        · intro k hk
          have := hroom k (hafter k hk)
          omega
        · exact fun k hk => hends k (hafter k hk)
      exact hopens _ _ _ (Nat.le_of_lt hbound) hrest
    have htokens : rowTokens links ++ m = rowTokens s.before ++
        (s.low.operator :: (s.low.operand.tokens ++ (rowTokens s.after ++ m))) := by
      have heq := congrArg rowTokens s.eq
      rw [heq]
      simp [rowTokens, Link.tokens]
    rw [htokens]
    -- what is in front of the split is extended up to its operator, which binds no tighter
    refine ih s.before.length (by omega) s.before (fun k hk => hpower k (hbefore k hk))
      (fun k hk => hroom k (hbefore k hk)) ?_ (.binary s.low.isInfix hlowPower hright hx) rfl
    rintro k hk t ⟨⟩ hcontinues
    exact absurd hcontinues.2 (Nat.not_lt.2 (hbeforePower k hk))

/-! ## Parsing a row -/

section

variable (first : Operand) (links : List Link)

theorem kind_ne_eof_of_starter? {kind : Kind} (h : (starter? kind).isSome) : kind ≠ .eof := by
  rintro rfl
  cases h

theorem Operand.starter?_of_mem (o : Operand) {t : Token} (h : t ∈ o.tokens) :
    (starter? t.kind).isSome := by
  rcases List.mem_append.1 h with h | h
  · rcases o.signs_kind t h with hk | hk
    · rw [hk]; rfl
    · rw [hk]; rfl
  · rw [List.mem_singleton.1 h]
    exact starter?_leaf o.leaf_eq

theorem kind_ne_eof_of_mem_row {t : Token} (h : t ∈ first.tokens ++ rowTokens links) :
    t.kind ≠ .eof := by
  rcases List.mem_append.1 h with h | h
  · exact kind_ne_eof_of_starter? (first.starter?_of_mem h)
  · obtain ⟨k, -, h⟩ := List.mem_flatMap.1 h
    rcases List.mem_cons.1 h with rfl | h
    · intro heof
      have := k.isInfix
      rw [heof] at this
      cases this
    · exact kind_ne_eof_of_starter? (k.operand.starter?_of_mem h)

/-- A row is read as its tree, with room for one expression for each power of infix operators, one
for the whole and one for each prefix operator of an operand. -/
theorem reads_row {b : Nat}
    (hroom : ∀ o ∈ first :: links.map Link.operand, 6 + o.signs.length ≤ b + 1) :
    Expression (b + 1) Kind.lowestPower (first.tokens ++ rowTokens links) []
      (grouped first.tree links) := by
  obtain ⟨hfirst, hlinks⟩ := List.forall_mem_cons.1 hroom
  have hstop : Ends Kind.prefixPower (rowTokens links ++ []) :=
    ends_rowTokens (fun k _ => Nat.le_of_lt k.power_range.2) (fun _ ht => by cases ht)
  have hopens := first.opens hstop (b := b) (by omega)
  have hrest : Extension (Expression b) Kind.lowestPower first.tree (rowTokens links ++ []) []
      (grouped first.tree links) := by
    refine extension_links links (fun k _ => k.power_range.1) ?_ (fun k _ _ ht => by cases ht)
      (.done fun _ ht => by cases ht)
    exact fun k hk => hlinks k.operand (List.mem_map_of_mem hk)
  have hread := hopens Kind.lowestPower [] _ (by decide) hrest
  rwa [List.append_nil] at hread

/-- A row is a program of one statement. -/
theorem program_row {b : Nat}
    (hroom : ∀ o ∈ first :: links.map Link.operand, 6 + o.signs.length ≤ b + 1) :
    Program (Expression (b + 1)) (first.tokens ++ rowTokens links)
      [.statement first.pos (grouped first.tree links)] := by
  have hread := reads_row first links hroom
  obtain ⟨t, ts, htokens, hpos⟩ : ∃ t ts, first.tokens = t :: ts ∧ t.pos = first.pos := by
    unfold Operand.tokens Operand.pos
    cases first.signs with
    | nil => exact ⟨_, _, rfl, rfl⟩
    | cons t ts => exact ⟨_, _, rfl, rfl⟩
  have hstarter := first.starter?_of_mem (htokens ▸ List.mem_cons_self)
  rw [htokens] at hread ⊢
  rw [← hpos]
  refine .cons (.expression ?_ ?_ hread) .nil
  · intro hk
    rw [hk] at hstarter
    cases hstarter
  · intro hk
    rw [hk] at hstarter
    cases hstarter

end

/-- **Rows of infix operators are grouped by rank, and to the left.**

Operands are identifiers and literals with any prefix operators before them, and there are any infix
operators between them. Six more expressions than the most prefix operators of an operand is all the
room that is needed, however long the row is. The end of the text may be a token of its own. -/
theorem ofTokens_row (first : Operand) (links : List Link) {stop : Option Token}
    (hstop : ∀ z ∈ stop, z.kind = .eof) {m : Int}
    (hm : ∀ o ∈ first :: links.map Link.operand, 6 + (o.signs.length : Int) ≤ m) :
    let parsed := Parsed.ofTokens (first.tokens ++ rowTokens links ++ stop.toList)
      { maxNesting := m }
    parsed.errors = [] ∧
      parsed.program = .program .start [.statement first.pos (grouped first.tree links)] := by
  have hfirst := hm first List.mem_cons_self
  obtain ⟨b, hb⟩ : ∃ b, m.toNat = b + 1 := ⟨m.toNat - 1, by omega⟩
  have hprogram := program_row first links (b := b) fun o ho => by
    have := hm o ho
    omega
  have hne : ∀ t ∈ first.tokens ++ rowTokens links, t.kind ≠ .eof := fun t ht =>
    kind_ne_eof_of_mem_row first links ht
  rw [← hb] at hprogram
  refine (errors_ofTokens_eq_nil_iff ?_).2 ⟨_, rfl, ?_⟩
  · cases stop with
    | none =>
      rw [Option.toList_none, List.append_nil]
      exact fun t ht => hne t ((List.dropLast_sublist _).subset ht)
    | some z => exact ended_append hne
  · cases stop with
    | none =>
      rw [Option.toList_none, List.append_nil, visible_eq_self hne]
      exact hprogram
    | some z =>
      rw [Option.toList_some, visible_append_eof hne (hstop z rfl)]
      exact hprogram

/-- A name as an operand, with prefix operators before it. -/
def nameOperand (signs : List Token) (name : String) (column : Int)
    (h : ∀ t ∈ signs, t.kind = .bang ∨ t.kind = .minus) : Operand where
  signs := signs
  atom := ⟨.ident, name, ⟨1, column⟩⟩
  leaf := .identifier ⟨1, column⟩ name
  signs_kind := h
  leaf_eq := rfl

/-- The operators of `-a - b * c - d == !-e`, each with the operand to its right. -/
def mixedLinks : List Link :=
  [⟨⟨.minus, "-", ⟨1, 4⟩⟩, nameOperand [] "b" 6 (by decide), by decide⟩,
    ⟨⟨.asterisk, "*", ⟨1, 8⟩⟩, nameOperand [] "c" 10 (by decide), by decide⟩,
    ⟨⟨.minus, "-", ⟨1, 12⟩⟩, nameOperand [] "d" 14 (by decide), by decide⟩,
    ⟨⟨.eq, "==", ⟨1, 16⟩⟩,
      nameOperand [⟨.bang, "!", ⟨1, 19⟩⟩, ⟨.minus, "-", ⟨1, 20⟩⟩] "e" 21 (by decide), by decide⟩]

theorem ofTokens_mixedRow :
    let first := nameOperand [⟨.minus, "-", ⟨1, 1⟩⟩] "a" 2 (by decide)
    (∀ o ∈ first :: mixedLinks.map Link.operand, 6 + (o.signs.length : Int) ≤ 8) ∧
      (Parsed.ofTokens (first.tokens ++ rowTokens mixedLinks) { maxNesting := 8 }).program =
        .program .start [.statement ⟨1, 1⟩
          (.binary ⟨1, 16⟩
            (.binary ⟨1, 12⟩
              (.binary ⟨1, 4⟩ (.unary ⟨1, 1⟩ "-" (.identifier ⟨1, 2⟩ "a")) "-"
                (.binary ⟨1, 8⟩ (.identifier ⟨1, 6⟩ "b") "*" (.identifier ⟨1, 10⟩ "c")))
              "-" (.identifier ⟨1, 14⟩ "d"))
            "==" (.unary ⟨1, 19⟩ "!" (.unary ⟨1, 20⟩ "-" (.identifier ⟨1, 21⟩ "e"))))] := by
  intro first
  have hroom : ∀ o ∈ first :: mixedLinks.map Link.operand, 6 + (o.signs.length : Int) ≤ 8 := by
    decide
  have hstop : ∀ z ∈ (none : Option Token), z.kind = .eof := fun _ hz => by cases hz
  have hparsed := (ofTokens_row first mixedLinks hstop hroom).2
  rw [Option.toList_none, List.append_nil] at hparsed
  refine ⟨hroom, hparsed.trans ?_⟩
  simp [grouped, mixedLinks, lowest, Split.atFirst, Split.behind, Link.rank, ranks,
    List.findIdx_cons, first, nameOperand, Operand.tree, Operand.pos]

end Scriptlet.Parser
