import BoundedLR.Derivation
import BoundedLR.Proofs.NormalizedRules

/-!
# Expressions with infix operators

An expression is an atom, an expression between brackets, or an operator between
two expressions.  One sequence of tokens is the reading of many expressions as
soon as it has two operators.  The priorities pick one of them, and this module
says which and why there is exactly one.

* `MayStand` compares two operators: whether the priorities let one of them stand
  in the left, or in the right, operand of the other.
* `Expression.Grouped` asks this of every operator and all the operators that its
  operands expose, however deep below it they stand.
* `Expression.regroup` rearranges an expression.  It keeps the tokens, and its
  result is grouped; so a grouped reading exists (`Expression.grouped_regroup`).
* `InfixSignature.operand` reads tokens from the left and undoes `Expression.leaves`
  on grouped expressions; so there is no second one (`Expression.eq_of_leaves`), as long
  as no pair of brackets can be taken for two atoms (`InfixSignature.Legible`).

Both halves rest on the same fact.  Of two operators that stand next to each other
exactly one may take the other as an operand (`mayStand_right_or_left`,
`not_mayStand_right_of_left`), so the place at which an operator enters the right
edge of a grouped expression is determined.
-/

namespace BoundedLR

/-! ## Comparing operators -/

/-- Whether the operator `inner` may stand in the operand of `outer` on the given
side: it belongs to a higher level, or to the same and this level groups that way. -/
def MayStand (priorities : List PriorityLevel) (side : Associativity) (outer inner : Symbol) :
    Prop :=
  ∃ m ∈ levelOf priorities outer, ∃ n ∈ levelOf priorities inner,
    m < n ∨ m = n ∧ priorities[m]?.map (·.associativity) = some side

instance (priorities : List PriorityLevel) (side : Associativity) (outer inner : Symbol) :
    Decidable (MayStand priorities side outer inner) :=
  inferInstanceAs (Decidable (∃ m ∈ levelOf priorities outer, ∃ n ∈ levelOf priorities inner,
    m < n ∨ m = n ∧ priorities[m]?.map (·.associativity) = some side))

section MayStand

variable {priorities : List PriorityLevel} {side other : Associativity} {o q s : Symbol}

/-- What may stand below something that may stand below `o` may itself stand below
`o`, on the side on which the first step goes down. -/
theorem MayStand.trans (h : MayStand priorities side o q) (h' : MayStand priorities other q s) :
    MayStand priorities side o s := by
  obtain ⟨m, hm, n, hn, hmn⟩ := h
  obtain ⟨n', hn', k, hk, hnk⟩ := h'
  obtain rfl : n = n' := Option.mem_unique hn hn'
  refine ⟨m, hm, k, hk, ?_⟩
  rcases hmn with hmn | ⟨rfl, hside⟩
  · left
    omega
  · rcases hnk with hnk | ⟨rfl, -⟩
    · exact .inl hnk
    · exact .inr ⟨rfl, hside⟩

/-- Of two neighbouring operators one may take the other as its operand. -/
theorem mayStand_right_or_left (hq : (levelOf priorities q).isSome)
    (ho : (levelOf priorities o).isSome) :
    MayStand priorities .right q o ∨ MayStand priorities .left o q := by
  obtain ⟨m, hm⟩ := Option.isSome_iff_exists.1 hq
  obtain ⟨n, hn⟩ := Option.isSome_iff_exists.1 ho
  rcases Nat.lt_trichotomy m n with hmn | rfl | hmn
  · exact .inl ⟨m, hm, n, hn, .inl hmn⟩
  · obtain ⟨p, hp, -⟩ := exists_of_levelOf hm
    cases hside : p.associativity with
    | left => exact .inr ⟨m, hn, m, hm, .inr ⟨rfl, by simp [hp, hside]⟩⟩
    | right => exact .inl ⟨m, hm, m, hn, .inr ⟨rfl, by simp [hp, hside]⟩⟩
  · exact .inr ⟨n, hn, m, hm, .inl hmn⟩

/-- Of two neighbouring operators only one may take the other as its operand. -/
theorem not_mayStand_right_of_left (h : MayStand priorities .left o q) :
    ¬ MayStand priorities .right q o := by
  rintro ⟨m, hm, n, hn, hmn⟩
  obtain ⟨n', hn', m', hm', hnm⟩ := h
  obtain rfl : m = m' := Option.mem_unique hm hm'
  obtain rfl : n = n' := Option.mem_unique hn hn'
  rcases hmn with hmn | ⟨rfl, hright⟩
  · omega
  · rcases hnm with hnm | ⟨-, hleft⟩
    · omega
    · rw [hleft] at hright
      cases hright

end MayStand

/-! ## Expressions -/

/-- An expression with infix operators. -/
inductive Expression where
  | atom (token : Token)
  | group (opening : Token) (inner : Expression) (closing : Token)
  | operation (left : Expression) (operator : Token) (right : Expression)
  deriving DecidableEq, Repr

namespace Expression

/-- The tokens of an expression, from left to right. -/
def leaves : Expression → List Token
  | atom t => [t]
  | group o x c => o :: (x.leaves ++ [c])
  | operation l o r => l.leaves ++ o :: r.leaves

/-- The operators of an expression that no bracket encloses, from left to right. -/
def operators : Expression → List Symbol
  | atom _ => []
  | group _ _ _ => []
  | operation l o r => l.operators ++ o.symbol :: r.operators

/-- Whether an expression is grouped as the priorities demand: the operators that an
operand exposes may all stand in it. -/
def Grouped (priorities : List PriorityLevel) : Expression → Prop
  | atom _ => True
  | group _ x _ => x.Grouped priorities
  | operation l o r =>
    l.Grouped priorities ∧ r.Grouped priorities ∧
      (∀ q ∈ l.operators, MayStand priorities .left o.symbol q) ∧
      (∀ q ∈ r.operators, MayStand priorities .right o.symbol q)

instance decidableGrouped (priorities : List PriorityLevel) :
    (x : Expression) → Decidable (x.Grouped priorities)
  | atom _ => inferInstanceAs (Decidable True)
  | group _ x _ => decidableGrouped priorities x
  | operation l _ r =>
    have := decidableGrouped priorities l
    have := decidableGrouped priorities r
    inferInstanceAs (Decidable (_ ∧ _ ∧ _ ∧ _))

/-! ## Rearranging -/

/-- Puts an operator and its right operand behind an expression.  They go down the
right edge for as long as the operators there bind more weakly. -/
def extend (priorities : List PriorityLevel) : Expression → Token → Expression → Expression
  | atom t, o, y => operation (atom t) o y
  | group p x c, o, y => operation (group p x c) o y
  | operation l q r, o, y =>
    if MayStand priorities .right q.symbol o.symbol then
      operation l q (extend priorities r o y)
    else operation (operation l q r) o y

/-- Puts an operator between two expressions and groups them anew, operand by
operand of the second. -/
def join (priorities : List PriorityLevel) : Expression → Token → Expression → Expression
  | x, o, atom t => extend priorities x o (atom t)
  | x, o, group p y c => extend priorities x o (group p y c)
  | x, o, operation l q r => join priorities (join priorities x o l) q r

/-- The grouped expression with the same tokens. -/
def regroup (priorities : List PriorityLevel) : Expression → Expression
  | atom t => atom t
  | group o x c => group o (x.regroup priorities) c
  | operation l o r => join priorities (l.regroup priorities) o (r.regroup priorities)

section Rearranging

variable {priorities : List PriorityLevel}

@[simp] theorem leaves_extend (x : Expression) (o : Token) (y : Expression) :
    (extend priorities x o y).leaves = x.leaves ++ o :: y.leaves := by
  induction x with
  | atom t => rfl
  | group p x c => rfl
  | operation l q r _ ihr =>
      rw [extend]
      split
      · simp [leaves, ihr]
      · rfl

@[simp] theorem leaves_join (x : Expression) (o : Token) (y : Expression) :
    (join priorities x o y).leaves = x.leaves ++ o :: y.leaves := by
  induction y generalizing x o with
  | atom t => exact leaves_extend x o _
  | group p y c => exact leaves_extend x o _
  | operation l q r ihl ihr => simp [join, leaves, ihl, ihr]

/-- Rearranging an expression keeps its tokens. -/
@[simp] theorem leaves_regroup (x : Expression) : (x.regroup priorities).leaves = x.leaves := by
  induction x with
  | atom t => rfl
  | group o x c ih => simp [regroup, leaves, ih]
  | operation l o r ihl ihr => simp [regroup, leaves, ihl, ihr]

@[simp] theorem operators_extend (x : Expression) (o : Token) (y : Expression) :
    (extend priorities x o y).operators = x.operators ++ o.symbol :: y.operators := by
  induction x with
  | atom t => rfl
  | group p x c => rfl
  | operation l q r _ ihr =>
      rw [extend]
      split
      · simp [operators, ihr]
      · rfl

@[simp] theorem operators_join (x : Expression) (o : Token) (y : Expression) :
    (join priorities x o y).operators = x.operators ++ o.symbol :: y.operators := by
  induction y generalizing x o with
  | atom t => exact operators_extend x o _
  | group p y c => exact operators_extend x o _
  | operation l q r ihl ihr => simp [join, operators, ihl, ihr]

@[simp] theorem operators_regroup (x : Expression) :
    (x.regroup priorities).operators = x.operators := by
  induction x with
  | atom t => rfl
  | group o x c _ => rfl
  | operation l o r ihl ihr => simp [regroup, operators, ihl, ihr]

/-! ## Rearranged expressions are grouped -/

/-- An operator that enters the right edge of a grouped expression leaves it grouped. -/
theorem grouped_extend {x y : Expression} {o : Token} (hx : x.Grouped priorities)
    (hy : y.Grouped priorities) (hprimary : y.operators = [])
    (hlevels : ∀ q ∈ x.operators, (levelOf priorities q).isSome)
    (ho : (levelOf priorities o.symbol).isSome) : (extend priorities x o y).Grouped priorities := by
  induction x with
  | atom t => simp [extend, Grouped, operators, hprimary, hy]
  | group p x c _ => exact ⟨hx, hy, by simp [operators], by simp [hprimary]⟩
  | operation l q r _ ihr =>
      obtain ⟨hl, hr, hleft, hright⟩ := hx
      have hlevelsr : ∀ s ∈ r.operators, (levelOf priorities s).isSome := fun s hs =>
        hlevels s (List.mem_append_right _ (List.mem_cons_of_mem _ hs))
      rw [extend]
      split
      · rename_i hqo
        refine ⟨hl, ihr hr hlevelsr, hleft, ?_⟩
        intro s hs
        rw [operators_extend, hprimary, List.mem_append, List.mem_singleton] at hs
        rcases hs with hs | rfl
        · exact hright s hs
        · exact hqo
      · rename_i hqo
        -- The operator at the root goes below the new one, and with it all it exposes.
        have hroot : MayStand priorities .left o.symbol q.symbol :=
          (mayStand_right_or_left (hlevels q.symbol (by simp [operators])) ho).resolve_left hqo
        refine ⟨⟨hl, hr, hleft, hright⟩, hy, ?_, by simp [hprimary]⟩
        intro s hs
        rw [operators, List.mem_append, List.mem_cons] at hs
        rcases hs with hs | rfl | hs
        · exact hroot.trans (hleft s hs)
        · exact hroot
        · exact hroot.trans (hright s hs)

theorem grouped_join {x y : Expression} {o : Token} (hx : x.Grouped priorities)
    (hy : y.Grouped priorities) (hlevels : ∀ q ∈ x.operators ++ o.symbol :: y.operators,
      (levelOf priorities q).isSome) : (join priorities x o y).Grouped priorities := by
  induction y generalizing x o with
  | atom t =>
      exact grouped_extend hx hy rfl (fun q hq => hlevels q (by simp [hq])) (hlevels _ (by simp))
  | group p y c _ =>
      exact grouped_extend hx hy rfl (fun q hq => hlevels q (by simp [hq])) (hlevels _ (by simp))
  | operation l q r ihl ihr =>
      obtain ⟨hl, hr, -, -⟩ := hy
      have hxl : (join priorities x o l).Grouped priorities :=
        ihl hx hl fun s hs => hlevels s (by
          rw [operators, ← List.cons_append, ← List.append_assoc]
          exact List.mem_append_left _ hs)
      exact ihr hxl hr fun s hs => hlevels s (by simpa [operators] using hs)

end Rearranging

/-! ## Grouped expressions are left as they are -/

section Fixed

variable {priorities : List PriorityLevel}

theorem extend_eq_operation {x : Expression} {o : Token} (y : Expression)
    (h : ∀ q ∈ x.operators, MayStand priorities .left o.symbol q) :
    extend priorities x o y = operation x o y := by
  cases x with
  | atom t => rfl
  | group p x c => rfl
  | operation l q r =>
      rw [extend, if_neg (not_mayStand_right_of_left (h q.symbol (by simp [operators])))]

/-- What may stand to the right of `o` goes into the right operand of `o` altogether. -/
theorem join_operation {o q : Token} {r : Expression} (x l : Expression)
    (hq : MayStand priorities .right o.symbol q.symbol)
    (hr : ∀ s ∈ r.operators, MayStand priorities .right o.symbol s) :
    join priorities (operation x o l) q r = operation x o (join priorities l q r) := by
  induction r generalizing q l with
  | atom t => exact if_pos hq
  | group p y c _ => exact if_pos hq
  | operation a s b iha ihb =>
      have ha : join priorities (operation x o l) q a = operation x o (join priorities l q a) :=
        iha l hq fun u hu => hr u (by simp [operators, hu])
      rw [join, ha, join]
      exact ihb _ (hr s.symbol (by simp [operators])) fun u hu => hr u (by simp [operators, hu])

/-- If the operands suit an operator, putting it between them changes neither. -/
theorem join_eq_operation {x y : Expression} {o : Token}
    (h : (operation x o y).Grouped priorities) : join priorities x o y = operation x o y := by
  induction y generalizing x o with
  | atom t => exact extend_eq_operation _ h.2.2.1
  | group p y c _ => exact extend_eq_operation _ h.2.2.1
  | operation l q r ihl ihr =>
      obtain ⟨hx, hy, hleft, hright⟩ := h
      have hxl : join priorities x o l = operation x o l :=
        ihl ⟨hx, hy.1, hleft, fun s hs => hright s (by simp [operators, hs])⟩
      calc join priorities x o (operation l q r)
          = join priorities (operation x o l) q r := by rw [join, hxl]
        _ = operation x o (join priorities l q r) :=
            join_operation x l (hright _ (by simp [operators]))
              fun s hs => hright s (by simp [operators, hs])
        _ = operation x o (operation l q r) := by rw [ihr hy]

end Fixed

end Expression

/-! ## Signatures -/

/-- What an infix grammar is made of: its only non-terminal, the levels of its
operators, its atoms, and a pair of brackets if it has one. -/
structure InfixSignature where
  expression : Symbol
  levels : List PriorityLevel
  atoms : List Symbol
  brackets : Option (Symbol × Symbol)
  deriving DecidableEq, Repr

namespace InfixSignature

/-- The operators of all levels. -/
def operators (s : InfixSignature) : List Symbol := s.levels.flatMap (·.symbols)

/-- A signature whose operators stand in one level each, and whose atoms and brackets
are not among them.  The brackets may double as atoms. -/
structure WellFormed (s : InfixSignature) : Prop where
  expression_kind : s.expression.kind = .nonTerminal
  disjoint : s.levels.Pairwise fun p q => ∀ o ∈ p.symbols, o ∉ q.symbols
  operator_kind : ∀ o ∈ s.operators, o.kind = .terminal
  atom_kind : ∀ t ∈ s.atoms, t.kind = .terminal
  atom_undeclared : ∀ t ∈ s.atoms, t ∉ s.operators
  bracket_kind : ∀ b ∈ s.brackets, b.1.kind = .terminal ∧ b.2.kind = .terminal
  bracket_undeclared : ∀ b ∈ s.brackets, b.1 ∉ s.operators ∧ b.2 ∉ s.operators

/-- One of the brackets is no atom, unless there is no operator anyway.  No priority tells
the two readings of `( ( ) + ( ) )` apart if both are atoms. -/
def Legible (s : InfixSignature) : Prop :=
  s.operators ≠ [] → ∀ b ∈ s.brackets, ¬ (b.1 ∈ s.atoms ∧ b.2 ∈ s.atoms)

instance (s : InfixSignature) : Decidable s.Legible :=
  inferInstanceAs (Decidable (s.operators ≠ [] → _))

end InfixSignature

/-- The operators of a signature are those with a level. -/
theorem InfixSignature.isSome_levelOf_iff_mem {s : InfixSignature} {o : Symbol} :
    (levelOf s.levels o).isSome ↔ o ∈ s.operators := by
  rw [isSome_levelOf_iff, InfixSignature.operators, List.mem_flatMap]

namespace Expression

/-- Whether an expression is made of the atoms, operators and brackets of a signature. -/
def Over (s : InfixSignature) : Expression → Prop
  | atom t => t.symbol ∈ s.atoms
  | group o x c => s.brackets = some (o.symbol, c.symbol) ∧ x.Over s
  | operation l o r => l.Over s ∧ o.symbol ∈ s.operators ∧ r.Over s

instance decidableOver (s : InfixSignature) : (x : Expression) → Decidable (x.Over s)
  | atom t => inferInstanceAs (Decidable (t.symbol ∈ s.atoms))
  | group o x c =>
    have := decidableOver s x
    inferInstanceAs (Decidable (s.brackets = some (o.symbol, c.symbol) ∧ x.Over s))
  | operation l o r =>
    have := decidableOver s l
    have := decidableOver s r
    inferInstanceAs (Decidable (l.Over s ∧ o.symbol ∈ s.operators ∧ r.Over s))

variable {s : InfixSignature}

/-- The operators of an expression over a signature have been declared. -/
theorem Over.isSome_levelOf {x : Expression} (h : x.Over s) :
    ∀ q ∈ x.operators, (levelOf s.levels q).isSome := by
  induction x with
  | atom t => simp [operators]
  | group o x c _ => simp [operators]
  | operation l o r ihl ihr =>
      obtain ⟨hl, ho, hr⟩ := h
      intro q hq
      rw [operators, List.mem_append, List.mem_cons] at hq
      rcases hq with hq | rfl | hq
      · exact ihl hl q hq
      · exact InfixSignature.isSome_levelOf_iff_mem.2 ho
      · exact ihr hr q hq

theorem over_extend {x y : Expression} {o : Token} (hx : x.Over s) (ho : o.symbol ∈ s.operators)
    (hy : y.Over s) : (extend s.levels x o y).Over s := by
  induction x with
  | atom t => exact ⟨hx, ho, hy⟩
  | group p x c _ => exact ⟨hx, ho, hy⟩
  | operation l q r _ ihr =>
      rw [extend]
      split
      · exact ⟨hx.1, hx.2.1, ihr hx.2.2⟩
      · exact ⟨hx, ho, hy⟩

theorem over_join {x y : Expression} {o : Token} (hx : x.Over s) (ho : o.symbol ∈ s.operators)
    (hy : y.Over s) : (join s.levels x o y).Over s := by
  induction y generalizing x o with
  | atom t => exact over_extend hx ho hy
  | group p y c _ => exact over_extend hx ho hy
  | operation l q r ihl ihr => exact ihr (ihl hx ho hy.1) hy.2.1 hy.2.2

theorem over_regroup {x : Expression} (h : x.Over s) : (x.regroup s.levels).Over s := by
  induction x with
  | atom t => exact h
  | group o x c ih => exact ⟨h.1, ih h.2⟩
  | operation l o r ihl ihr => exact over_join (ihl h.1) h.2.1 (ihr h.2.2)

/-- **A rearranged expression is grouped.** -/
theorem grouped_regroup {x : Expression} (h : x.Over s) :
    (x.regroup s.levels).Grouped s.levels := by
  induction x with
  | atom t => trivial
  | group o x c ih => exact ih h.2
  | operation l o r ihl ihr =>
      refine grouped_join (ihl h.1) (ihr h.2.2) ?_
      rw [operators_regroup, operators_regroup]
      exact h.isSome_levelOf

end Expression

/-! ## Reading tokens -/

namespace InfixSignature

variable (s : InfixSignature)

/-- Whether `t`, where an operand is due, opens a group.  A bracket that doubles as an
atom opens one only if the token behind it begins an operand. -/
def Opens (t : Symbol) (next : Option Symbol) : Prop :=
  (∃ b ∈ s.brackets, b.1 = t) ∧ (t ∈ s.atoms → ∃ u ∈ next, u ∈ s.atoms ∨ u = t)

instance (t : Symbol) (next : Option Symbol) : Decidable (s.Opens t next) :=
  inferInstanceAs (Decidable (_ ∧ _))

/-- Puts an operand behind what has been read on its level: nothing, or an expression
and an operator. -/
def attach (pending : Option (Expression × Token)) (x : Expression) : Expression :=
  match pending with
  | none => x
  | some (y, o) => y.join s.levels o x

mutual

/-- Reads tokens where an operand is due.  The frames are the brackets that are open,
each with what stands in front of it on its level. -/
def operand : List (Option (Expression × Token) × Token) → Option (Expression × Token) →
    List Token → Option Expression
  | frames, pending, t :: rest =>
    if s.Opens t.symbol (rest.head?.map (·.symbol)) then
      operand ((pending, t) :: frames) none rest
    else follower frames (s.attach pending (.atom t)) rest
  | _, _, [] => none

/-- Reads tokens behind an operand. -/
def follower : List (Option (Expression × Token) × Token) → Expression → List Token →
    Option Expression
  | frames, x, t :: rest =>
    if t.symbol ∈ s.operators then operand frames (some (x, t)) rest
    else
      match frames with
      | (pending, o) :: frames => follower frames (s.attach pending (.group o x t)) rest
      | [] => none
  | frames, x, [] => if frames.isEmpty then some x else none

end

end InfixSignature

namespace Expression

variable {s : InfixSignature}

/-- An expression begins with an atom or an opening bracket. -/
theorem Over.exists_head {x : Expression} (h : x.Over s) : ∃ t rest, x.leaves = t :: rest ∧
    (t.symbol ∈ s.atoms ∨ ∃ b ∈ s.brackets, b.1 = t.symbol) := by
  induction x with
  | atom t => exact ⟨t, [], rfl, .inl h⟩
  | group o x c _ => exact ⟨o, _, rfl, .inr ⟨_, h.1, rfl⟩⟩
  | operation l o r ihl _ =>
      obtain ⟨t, rest, hl, ht⟩ := ihl h.1
      exact ⟨t, rest ++ o :: r.leaves, by rw [leaves, hl, List.cons_append], ht⟩

/-- In front of an operator, a closing bracket or the end an atom opens no group. -/
theorem not_opens_of_atom (hs : s.WellFormed)
    (hbrackets : ∀ b ∈ s.brackets, ¬ (b.1 ∈ s.atoms ∧ b.2 ∈ s.atoms)) {t : Symbol}
    {next : Option Symbol} (ht : t ∈ s.atoms)
    (hnext : ∀ u ∈ next, u ∈ s.operators ∨ ∃ b ∈ s.brackets, b.2 = u) : ¬ s.Opens t next := by
  rintro ⟨⟨b, hb, rfl⟩, hstarts⟩
  obtain ⟨u, hu, hstart⟩ := hstarts ht
  have hatom : u ∈ s.atoms := by
    rcases hstart with hatom | rfl
    · exact hatom
    · exact ht
  rcases hnext u hu with hop | ⟨b', hb', rfl⟩
  · exact hs.atom_undeclared u hatom hop
  · obtain rfl : b = b' := Option.mem_unique hb hb'
    exact hbrackets b hb ⟨ht, hatom⟩

/-- In front of an expression an opening bracket opens a group. -/
theorem opens_of_over {x : Expression} (hx : x.Over s) {o c : Symbol}
    (hb : s.brackets = some (o, c)) (rest : List Token) :
    s.Opens o ((x.leaves ++ rest).head?.map (·.symbol)) := by
  obtain ⟨t, tail, hleaves, ht⟩ := hx.exists_head
  refine ⟨⟨(o, c), hb, rfl⟩, fun _ => ⟨t.symbol, by simp [hleaves], ?_⟩⟩
  rcases ht with ht | ⟨b, hb', ht⟩
  · exact .inl ht
  · obtain rfl : (o, c) = b := Option.mem_unique hb hb'
    exact .inr ht.symm

/-- **Reading the tokens of a grouped expression gives the expression**, on top of
what has been read in front of it. -/
theorem operand_leaves (hs : s.WellFormed)
    (hbrackets : ∀ b ∈ s.brackets, ¬ (b.1 ∈ s.atoms ∧ b.2 ∈ s.atoms)) {x : Expression}
    (hx : x.Over s) (hgrouped : x.Grouped s.levels)
    (frames : List (Option (Expression × Token) × Token))
    (pending : Option (Expression × Token)) {rest : List Token}
    (hrest : ∀ u ∈ rest.head?.map (·.symbol), u ∈ s.operators ∨ ∃ b ∈ s.brackets, b.2 = u) :
    s.operand frames pending (x.leaves ++ rest) =
      s.follower frames (s.attach pending x) rest := by
  induction x generalizing frames pending rest with
  | atom t =>
      show s.operand frames pending (t :: rest) = _
      rw [InfixSignature.operand, if_neg (not_opens_of_atom hs hbrackets hx hrest)]
  | group o x c ih =>
      obtain ⟨hb, hx⟩ := hx
      have hc : c.symbol ∉ s.operators := (hs.bracket_undeclared _ hb).2
      have hinner : s.operand ((pending, o) :: frames) none (x.leaves ++ c :: rest) =
          s.follower ((pending, o) :: frames) x (c :: rest) := by
        refine ih hx hgrouped ((pending, o) :: frames) none fun u hu => ?_
        obtain rfl : c.symbol = u := by simpa using hu
        exact .inr ⟨_, hb, rfl⟩
      calc s.operand frames pending ((group o x c).leaves ++ rest)
          = s.operand frames pending (o :: (x.leaves ++ c :: rest)) := by simp [leaves]
        _ = s.operand ((pending, o) :: frames) none (x.leaves ++ c :: rest) := by
            rw [InfixSignature.operand, if_pos (opens_of_over hx hb _)]
        _ = s.follower ((pending, o) :: frames) x (c :: rest) := hinner
        _ = s.follower frames (s.attach pending (group o x c)) rest := by
            rw [InfixSignature.follower, if_neg hc]
  | operation l o r ihl ihr =>
      obtain ⟨hl, ho, hr⟩ := hx
      have hleft : s.operand frames pending (l.leaves ++ o :: (r.leaves ++ rest)) =
          s.follower frames (s.attach pending l) (o :: (r.leaves ++ rest)) := by
        refine ihl hl hgrouped.1 frames pending fun u hu => ?_
        obtain rfl : o.symbol = u := by simpa using hu
        exact .inl ho
      have hright := ihr hr hgrouped.2.1 frames (some (s.attach pending l, o)) hrest
      have hattach : s.attach (some (s.attach pending l, o)) r =
          s.attach pending (operation l o r) := by
        cases pending with
        | none => exact join_eq_operation hgrouped
        | some y => rfl
      calc s.operand frames pending ((operation l o r).leaves ++ rest)
          = s.operand frames pending (l.leaves ++ o :: (r.leaves ++ rest)) := by simp [leaves]
        _ = s.follower frames (s.attach pending l) (o :: (r.leaves ++ rest)) := hleft
        _ = s.operand frames (some (s.attach pending l, o)) (r.leaves ++ rest) := by
            rw [InfixSignature.follower.eq_def]
            exact if_pos ho
        _ = s.follower frames (s.attach pending (operation l o r)) rest := by
            rw [hright, hattach]

/-- Without operators there are only atoms in brackets, and their number decides. -/
theorem eq_of_leaves_of_operators_eq_nil (h : s.operators = []) {x y : Expression}
    (hx : x.Over s) (hy : y.Over s) (hleaves : x.leaves = y.leaves) : x = y := by
  induction x generalizing y with
  | atom t =>
      cases y with
      | atom u => rw [List.singleton_inj.1 hleaves]
      | group p y d =>
          have hlength := congrArg List.length hleaves
          simp [leaves] at hlength
      | operation l q r => exact absurd (h ▸ hy.2.1) List.not_mem_nil
  | group o x c ih =>
      cases y with
      | atom u =>
          have hlength := congrArg List.length hleaves
          simp [leaves] at hlength
      | group p y d =>
          obtain ⟨rfl, hrest⟩ := List.cons.inj hleaves
          obtain ⟨hinner, hclose⟩ := List.append_inj' hrest rfl
          rw [ih hx.2 hy.2 hinner, List.singleton_inj.1 hclose]
      | operation l q r => exact absurd (h ▸ hy.2.1) List.not_mem_nil
  | operation l q r => exact absurd (h ▸ hx.2.1) List.not_mem_nil

/-- **Grouped expressions with the same tokens are the same.** -/
theorem eq_of_leaves (hs : s.WellFormed) (hlegible : s.Legible) {x y : Expression}
    (hx : x.Over s) (hy : y.Over s) (hgx : x.Grouped s.levels) (hgy : y.Grouped s.levels)
    (h : x.leaves = y.leaves) : x = y := by
  by_cases hnone : s.operators = []
  · exact eq_of_leaves_of_operators_eq_nil hnone hx hy h
  have hread : ∀ {z : Expression}, z.Over s → z.Grouped s.levels →
      s.operand [] none z.leaves = some z := by
    intro z hz hgz
    have hz' : s.operand [] none (z.leaves ++ []) = s.follower [] z [] :=
      operand_leaves hs (hlegible hnone) hz hgz [] none (by simp)
    rw [List.append_nil] at hz'
    rw [hz']
    rfl
  have hxy : some x = some y := by rw [← hread hx hgx, h, hread hy hgy]
  exact Option.some.inj hxy

end Expression

end BoundedLR
