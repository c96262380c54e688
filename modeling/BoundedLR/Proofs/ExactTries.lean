import BoundedLR.Proofs.SimulatedLookahead
import BoundedLR.Proofs.Soundness

/-!
# Tries are exact

Let a way down in the trie of a contested state be given, and a symbol behind it.  The trie
settles on a choice if this choice and no other allows the word that has been read; it has
another level if two choices do; and it has no entry if none does.  Nothing else is in the
trie (`Grammar.entry_exact_of_compile`).

A level is filled from the continuations of the choices that allow the way down to it, so what
is left at a symbol are the choices that allow the way and the symbol.  It remains to be seen
that a choice which is left alone can be carried out: a shift can, since the first symbol of a
word that it allows has an edge.
-/

namespace BoundedLR

variable {p : Parser} {start : Symbol} {n : Nat} {choice other : Choice} {word path : List Symbol}
  {s : Symbol} {continuations : List Continuation} {level : Trie Decision} {decision : Decision}

/-! ## What is left at a symbol -/

namespace Contest

variable {k : Contest}

/-- The choices that allow a word are those that are left at its last symbol. -/
theorem Exact.allows_iff_remaining (h : k.Exact path continuations) :
    choice.Allows k.automaton k.productions k.state (path ++ [s]) ↔
      choice ∈ remaining continuations s := by
  rw [h.allows_iff, mem_remaining]
  constructor
  · rintro ⟨d, hd, hchoice, hsymbol, -⟩
    exact ⟨d, hd, hsymbol, hchoice⟩
  · rintro ⟨d, hd, hsymbol, hchoice⟩
    exact ⟨d, hd, hchoice, hsymbol, .done⟩

/-- A terminal that leaves a choice, and not this one alone, leaves another. -/
theorem exists_ne_of_remaining (h : choice ∈ remaining continuations s)
    (hmany : remaining continuations s ≠ [choice]) :
    ∃ other ∈ remaining continuations s, choice ≠ other := by
  by_contra hnone
  push Not at hnone
  refine hmany ((IsAscending.ascending _).eq_of_mem_iff (.singleton choice) fun other => ?_)
  rw [List.mem_singleton]
  exact ⟨fun hother => (hnone other hother).symm, fun heq => heq ▸ h⟩

end Contest

/-! ## What an entry says -/

/-- What carrying out a choice amounts to, when a word lies ahead: a reduction is given by its
place, and a shift by where the first symbol of the word leads and whether an announcement may
still be due behind it. -/
inductive Choice.Settles (p : Parser) (state : Nat) (word : List Symbol) :
    Choice → Decision → Prop where
  | shift {e : Edge} : e ∈ p.automaton.edges state → e.symbol.isTerminal = true →
      word.head? = some e.symbol →
      Settles p state word .shift (.shift e.target (p.announces e.target))
  | reduce {index : Nat} : Settles p state word (.reduce index) (.reduce index)

/-- An entry of a trie says exactly which choices of a state allow a word. -/
structure Parser.SaysWhoAllows (p : Parser) (state : Nat) (word : List Symbol)
    (entry : Option (TrieEntry Decision)) : Prop where
  /-- It settles on a choice if this one and no other does. -/
  settled_iff : ∀ choice : Choice,
    (∃ decision, entry = some (.settled decision) ∧ choice.Settles p state word decision) ↔
      choice.Allows p.automaton p.productions state word ∧
        ∀ other : Choice, other.Allows p.automaton p.productions state word → other = choice
  /-- It leads to another level if there are two. -/
  deeper_iff : (∃ below, entry = some (.deeper below)) ↔
    ∃ choice other : Choice, choice ≠ other ∧
      choice.Allows p.automaton p.productions state word ∧
      other.Allows p.automaton p.productions state word
  /-- There is none if there is no such choice. -/
  none_iff : entry = none ↔ ∀ choice : Choice,
    ¬ choice.Allows p.automaton p.productions state word
  /-- What it settles on is always a choice of the state. -/
  exists_choice : ∀ decision, entry = some (.settled decision) →
    ∃ choice : Choice, choice.Settles p state word decision

/-- A decision tells which choice has been made. -/
theorem Choice.Settles.eq (h : choice.Settles p n word decision)
    (h' : other.Settles p n word decision) : choice = other := by
  generalize hd : decision = d at h'
  cases h with
  | shift => cases h' with
    | shift => rfl
    | reduce => cases hd
  | reduce => cases h' with
    | shift => cases hd
    | reduce => rw [Decision.reduce.inj hd]

namespace Parser.SaysWhoAllows

theorem none (h : ∀ choice : Choice, ¬ choice.Allows p.automaton p.productions n word) :
    p.SaysWhoAllows n word none where
  settled_iff choice := by simp [h]
  deeper_iff := by simp [h]
  none_iff := by simp [h]
  exists_choice _ := nofun

theorem settled (h : choice.Allows p.automaton p.productions n word)
    (honly : ∀ other : Choice, other.Allows p.automaton p.productions n word → other = choice)
    (hsettles : choice.Settles p n word decision) :
    p.SaysWhoAllows n word (some (.settled decision)) where
  settled_iff other := by
    constructor
    · rintro ⟨_, heq, hother⟩
      cases heq
      obtain rfl := hother.eq hsettles
      exact ⟨h, honly⟩
    · rintro ⟨hother, -⟩
      obtain rfl := honly other hother
      exact ⟨decision, rfl, hsettles⟩
  deeper_iff := by
    constructor
    · rintro ⟨_, heq⟩
      cases heq
    · rintro ⟨one, another, hne, hone, hanother⟩
      exact absurd ((honly one hone).trans (honly another hanother).symm) hne
  none_iff := ⟨nofun, fun hnone => absurd h (hnone choice)⟩
  exists_choice _ heq := by
    cases heq
    exact ⟨choice, hsettles⟩

theorem deeper (hne : choice ≠ other) (h : choice.Allows p.automaton p.productions n word)
    (hother : other.Allows p.automaton p.productions n word) (below : Trie Decision) :
    p.SaysWhoAllows n word (some (.deeper below)) where
  settled_iff one := by
    constructor
    · rintro ⟨_, heq, -⟩
      cases heq
    · rintro ⟨-, honly⟩
      exact absurd ((honly choice h).trans (honly other hother).symm) hne
  deeper_iff := iff_of_true ⟨below, rfl⟩ ⟨choice, other, hne, h, hother⟩
  none_iff := ⟨nofun, fun hnone => absurd h (hnone choice)⟩
  exists_choice _ := nofun

end Parser.SaysWhoAllows

namespace Parser.Compiled

/-- A choice that allows a word can be carried out. -/
theorem exists_decision (hp : p.Compiled start)
    (h : choice.Allows p.automaton p.productions n word) :
    ∃ decision, (p.contest n).decision? word choice = some decision ∧
      choice.Settles p n word decision := by
  cases h with
  | @shift e rest he hterm _ =>
      have hshift : p.automaton.shift n e.symbol = some e.target :=
        (hp.realises.shift_eq_some_iff hterm).2 ⟨e, he, rfl, rfl⟩
      refine ⟨_, ?_, .shift he hterm rfl⟩
      exact congrArg (Option.map _) hshift
  | reduce => exact ⟨_, rfl, .reduce⟩

/-- **What an entry says**, when its level is filled from the right continuations. -/
theorem saysWhoAllows (hp : p.Compiled start) {levels : Nat}
    (hsplit : (p.contest n).split levels path continuations = .ok level)
    (h : (p.contest n).Exact path continuations) :
    p.SaysWhoAllows n (path ++ [s]) (level.find? s) := by
  have hallows : ∀ {choice : Choice},
      choice.Allows p.automaton p.productions n (path ++ [s]) ↔
        choice ∈ Contest.remaining continuations s := h.allows_iff_remaining
  have hsays := Contest.find?_split hsplit s
  generalize level.find? s = entry at hsays ⊢
  cases hsays with
  | absent hnone =>
      refine .none fun choice hchoice => ?_
      obtain ⟨d, hd, hsymbol, -⟩ := Contest.mem_remaining.1 (hallows.1 hchoice)
      exact hnone d hd hsymbol
  | @impossible choice hone hd =>
      -- the only choice that is left allows the word, so it can be carried out
      have hchoice := hallows.2 (hone ▸ List.mem_singleton_self choice)
      obtain ⟨decision, hdecision, -⟩ := hp.exists_decision hchoice
      cases hd.symm.trans hdecision
  | @settled choice decision hone hd =>
      have hchoice := hallows.2 (hone ▸ List.mem_singleton_self choice)
      obtain ⟨_, hdecision, hsettles⟩ := hp.exists_decision hchoice
      cases hd.symm.trans hdecision
      refine .settled hchoice (fun other hother => ?_) hsettles
      rw [hallows, hone, List.mem_singleton] at hother
      exact hother
  | deeper _ _ hsome hmany _ _ =>
      obtain ⟨d, hd, hsymbol⟩ := hsome
      have hmem : d.choice ∈ Contest.remaining continuations s :=
        Contest.mem_remaining.2 ⟨d, hd, hsymbol, rfl⟩
      obtain ⟨other, hother, hne⟩ := Contest.exists_ne_of_remaining hmem (hmany d.choice)
      exact .deeper hne (hallows.2 hmem) (hallows.2 hother) _

/-- A state with two choices has had its choices told apart. -/
theorem settle_of_contested (hp : p.Compiled start) {root : Trie Decision}
    (hroot : p.table.root n = .ok root) (hcontested : 2 ≤ (p.contest n).choices.length) :
    n < p.automaton.count ∧ (p.contest n).settle = .ok root := by
  obtain ⟨node, hnode, hfor, rfl⟩ := hp.root_eq_ok hroot
  refine ⟨hp.lt_count_of_node hnode, ?_⟩
  have hchoices : (p.contest n).choices =
      (if (p.automaton.terminalEdges n).isEmpty then [] else [Choice.shift]) ++
        (List.range (p.automaton.reductions n).length).map .reduce := rfl
  cases hfor with
  | reduces hone hnoedge _ _ => simp [hchoices, hone, hnoedge] at hcontested
  | shifts hnone _ _ =>
      rw [hchoices, hnone] at hcontested
      split at hcontested <;> simp at hcontested
  | settled _ _ hsettle => exact hsettle

end Parser.Compiled

/-- **Tries are exact.**  Let a grammar compile, and let a state have several choices.  Behind
a way down in its trie, the entry for one more symbol says which of the choices allow the word
made up of the way and the symbol: it settles on a choice if this and no other allows the
word, it leads one level further down if two of them do, and it is missing if none does. -/
theorem Grammar.entry_exact_of_compile {grammar : Grammar} {bound : Nat} {root : Trie Decision}
    (hp : grammar.compile bound = .ok p) (hroot : p.table.root n = .ok root)
    (hcontested : 2 ≤ (p.contest n).choices.length) (hw : root.walk path = some level)
    (s : Symbol) : p.SaysWhoAllows n (path ++ [s]) (level.find? s) := by
  obtain ⟨-, hcompiled⟩ := compiled_of_compile hp
  have ha := hcompiled.realises
  obtain ⟨hn, hsettle⟩ := hcompiled.settle_of_contested hroot hcontested
  obtain ⟨levels, found, -, hfound, hsplit⟩ := Contest.settle_eq_ok hsettle
  have hexact := Contest.exact_of_settle (k := p.contest n) ha hn hfound
  obtain ⟨fewer, behind, hbelow, hbehind⟩ := Contest.exact_of_walk ha hsplit hexact hw
  rw [List.nil_append] at hbelow hbehind
  exact hcompiled.saysWhoAllows hbelow hbehind

/-! ## A shift that is settled late -/

/-- Two rules that both begin with the terminal `0`, which the first has to reduce.  Behind it
the terminal `1` follows either way, and only the next one tells whether to shift. -/
def Grammar.hesitant : Grammar where
  start := .nonTerminal 0
  rules :=
    [⟨.nonTerminal 0, [.symbol (.nonTerminal 1), .symbol (.terminal 1), .symbol (.terminal 2)],
        0, false⟩,
      ⟨.nonTerminal 0, [.symbol (.terminal 0), .symbol (.terminal 1), .symbol (.terminal 3)],
        0, true⟩,
      ⟨.nonTerminal 1, [.symbol (.terminal 0)], 0, false⟩]
  priorities := []

/-- The leaf behind two symbols shifts the first of them, with its flag. -/
theorem Grammar.entry_exact_of_compile_hesitant : ∃ p root level, hesitant.compile 2 = .ok p ∧
    p.table.root 1 = .ok root ∧ 2 ≤ (p.contest 1).choices.length ∧
    root.walk [.terminal 1] = some level ∧
    level.find? (.terminal 3) = some (.settled (.shift 4 true)) ∧
    p.SaysWhoAllows 1 [.terminal 1, .terminal 3] (level.find? (.terminal 3)) ∧
    Choice.shift.Allows p.automaton p.productions 1 [.terminal 1, .terminal 3] ∧
    ¬ (Choice.reduce 0).Allows p.automaton p.productions 1 [.terminal 1, .terminal 3] := by
  obtain ⟨p, s, hp, -, htest⟩ := exists_of_passes (show hesitant.passes 2 9 (fun p _ =>
    yields (p.table.root 1) fun root => (root.walk [.terminal 1]).any fun level =>
      decide (2 ≤ (p.contest 1).choices.length) &&
      level.find? (.terminal 3) == some (.settled (.shift 4 true))) = true by decide +kernel)
  obtain ⟨root, hroot, htest⟩ := exists_of_yields htest
  obtain ⟨level, hw, htest⟩ := (Option.any_eq_true _ _).1 htest
  rw [Bool.and_eq_true, decide_eq_true_eq, beq_iff_eq] at htest
  obtain ⟨hcontested, hentry⟩ := htest
  have hexact := entry_exact_of_compile hp hroot hcontested hw (.terminal 3)
  obtain ⟨choice, hchoice⟩ := hexact.exists_choice _ hentry
  obtain ⟨hallows, honly⟩ := (hexact.settled_iff choice).1 ⟨_, hentry, hchoice⟩
  obtain rfl : choice = .shift := by
    generalize hd : Decision.shift 4 true = decision at hchoice
    cases hchoice with
    | shift => rfl
    | reduce => cases hd
  refine ⟨p, root, level, hp, hroot, hcontested, hw, hentry, hexact, hallows, fun hreduce => ?_⟩
  cases honly _ hreduce

end BoundedLR
