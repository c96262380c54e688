import BoundedLR.Proofs.AscendingSets
import BoundedLR.Proofs.Correspondences
import BoundedLR.Proofs.Operations

/-!
# Sessions on tables that correspond

A session on one table and a session on another are alike if their configurations
are and if they expect the same token index next.  The record of one holds nodes
of its own table, so the two records agree in everything but the nodes, and the
nodes belong together.

Every operation keeps sessions alike and returns the same on both sides, so no
sequence of operations tells the tables apart: `transcript_alike`.
-/

namespace BoundedLR
namespace Correspondence

variable {Node Level Node' Level' : Type} {F : Fault → Prop}
  {R : Correspondence Node Level Node' Level'}

/-! ## Lists side by side -/

theorem rel_getElem? {α β : Type} {P : α → β → Prop} {xs : List α} {ys : List β}
    (h : List.Forall₂ P xs ys) (n : Nat) : Option.Rel P xs[n]? ys[n]? := by
  induction h generalizing n with
  | nil => exact .none
  | cons hxy _ ih =>
      cases n with
      | zero => exact .some hxy
      | succ n => exact ih n

theorem rel_find? {α β : Type} {P : α → β → Prop} {p : α → Bool} {q : β → Bool} {xs : List α}
    {ys : List β} (hpq : ∀ x y, P x y → p x = q y) (h : List.Forall₂ P xs ys) :
    Option.Rel P (xs.find? p) (ys.find? q) := by
  induction h with
  | nil => exact .none
  | @cons x y _ _ hxy _ ih =>
      rw [List.find?_cons, List.find?_cons, ← hpq x y hxy]
      cases p x with
      | true => exact .some hxy
      | false => exact ih

theorem rel_map {α β γ δ : Type} {P : α → β → Prop} {Q : γ → δ → Prop} {f : α → γ} {g : β → δ}
    (hfg : ∀ x y, P x y → Q (f x) (g y)) {x : Option α} {y : Option β} (h : Option.Rel P x y) :
    Option.Rel Q (x.map f) (y.map g) := by
  cases h with
  | none => exact .none
  | some hxy => exact .some (hfg _ _ hxy)

/-! ## Records -/

/-- Entries that differ in their nodes at most, and these belong together. -/
structure EntriesAlike (R : Correspondence Node Level Node' Level') (e : Entry Node)
    (e' : Entry Node') : Prop where
  node : R.node e.node e'.node
  offset : e.offset = e'.offset
  provisional : e.provisional = e'.provisional

/-- Records that differ in the nodes of their entries at most. -/
structure RecordsAlike (R : Correspondence Node Level Node' Level') (r : Record Node)
    (r' : Record Node') : Prop where
  entries : List.Forall₂ R.EntriesAlike r.entries r'.entries
  steps : r.steps = r'.steps
  accepted : r.accepted = r'.accepted

namespace RecordsAlike

variable {r : Record Node} {r' : Record Node'}

theorem spanStart (h : R.RecordsAlike r r') (count : Nat) :
    r.spanStart count = r'.spanStart count := by
  cases count with
  | zero => exact congrArg List.length h.steps
  | succ count =>
      rw [Record.spanStart, Record.spanStart]
      have hrel := rel_getElem? h.entries count
      generalize r.entries[count]? = x at hrel ⊢
      generalize r'.entries[count]? = y at hrel ⊢
      cases hrel with
      | none => exact congrArg List.length h.steps
      | some he => exact he.offset

theorem settled (h : R.RecordsAlike r r') : r.settled = r'.settled := by
  have hrel := rel_find? (p := fun e => e.provisional) (q := fun e => e.provisional)
    (fun _ _ he => he.provisional) (List.rel_reverse h.entries)
  rw [Record.settled, Record.settled]
  generalize r.entries.reverse.find? (·.provisional) = x at hrel ⊢
  generalize r'.entries.reverse.find? (·.provisional) = y at hrel ⊢
  cases hrel with
  | none => exact congrArg List.length h.steps
  | some he => exact he.offset

/-- Both records hand out the same steps and stay alike. -/
theorem clearSteps (h : R.RecordsAlike r r') : r.clearSteps.1 = r'.clearSteps.1 ∧
    R.RecordsAlike r.clearSteps.2 r'.clearSteps.2 := by
  unfold Record.clearSteps
  dsimp only
  rw [h.settled, h.steps]
  refine ⟨rfl, ⟨?_, rfl, h.accepted⟩⟩
  refine List.forall₂_map_left_iff.2 (List.forall₂_map_right_iff.2 ?_)
  exact h.entries.imp fun e e' he =>
    ⟨he.node, congrArg (· - r'.settled) he.offset, he.provisional⟩

end RecordsAlike

/-- The operations on a record keep records alike. -/
theorem recordsAlike_related : R.StacksRelated R.RecordsAlike where
  peek h k := rel_map (fun _ _ he => he.node) (rel_getElem? h.entries k)
  isAccepted h := h.accepted
  shift {s s' landing landing'} token h hl := by
    refine ⟨.cons ⟨hl.1, congrArg List.length h.steps, hl.2⟩ h.entries, ?_, h.accepted⟩
    change (if token.symbol = .endOfInput then s.steps else
      s.steps ++ [.shift token.symbol token.index landing.predict]) =
      if token.symbol = .endOfInput then s'.steps else
      s'.steps ++ [.shift token.symbol token.index landing'.predict]
    rw [h.steps, hl.2]
  reduce {s s' landing landing'} q h hl := by
    refine ⟨.cons ⟨hl.1, h.spanStart q.count, hl.2⟩ (List.forall₂_drop q.count h.entries), ?_,
      h.accepted⟩
    change (if q.predict then s.steps.insertIdx (s.spanStart q.count) _ else s.steps) ++ _ =
      (if q.predict then s'.steps.insertIdx (s'.spanStart q.count) _ else s'.steps) ++ _
    rw [h.steps, h.spanStart]
  accept h := ⟨h.entries, h.steps, rfl⟩

/-! ## Dry runs -/

/-- Dry runs that differ in their nodes at most. -/
structure DryRunsAlike (R : Correspondence Node Level Node' Level') (d : DryRun Node)
    (d' : DryRun Node') : Prop where
  kept : List.Forall₂ R.EntriesAlike d.kept d'.kept
  pushed : List.Forall₂ R.node d.pushed d'.pushed
  accepted : d.accepted = d'.accepted

/-- The operations on a dry run keep dry runs alike. -/
theorem dryRunsAlike_related : R.StacksRelated R.DryRunsAlike where
  peek {d d'} h k := by
    change Option.Rel R.node (d.peek k) (d'.peek k)
    rw [DryRun.peek_eq, DryRun.peek_eq]
    refine rel_getElem? (List.rel_append h.pushed ?_) k
    exact List.forall₂_map_left_iff.2 (List.forall₂_map_right_iff.2
      (h.kept.imp fun _ _ he => he.node))
  isAccepted h := h.accepted
  shift _ h hl := ⟨h.kept, .cons hl.1 h.pushed, h.accepted⟩
  reduce {d d' landing landing'} q h hl := by
    refine ⟨?_, .cons hl.1 (List.forall₂_drop q.count h.pushed), h.accepted⟩
    change List.Forall₂ R.EntriesAlike (d.kept.drop (q.count - d.pushed.length))
      (d'.kept.drop (q.count - d'.pushed.length))
    rw [h.pushed.length_eq]
    exact List.forall₂_drop _ h.kept
  accept h := ⟨h.kept, h.pushed, rfl⟩

/-! ## Sessions -/

/-- Sessions that have come to the same place on two tables. -/
structure SessionsAlike (R : Correspondence Node Level Node' Level') (s : Session Node Level)
    (s' : Session Node' Level') : Prop where
  configuration : R.ConfigurationsAlike R.RecordsAlike s.configuration s'.configuration
  next : s.next = s'.next

section Sessions

variable {t : ParseTable Node Level} {t' : ParseTable Node' Level'} {s : Session Node Level}
  {s' : Session Node' Level'}

/-- What an operation returns is the same on both tables, and the sessions after it
are alike. -/
def OutcomesAlike {α : Type} (R : Correspondence Node Level Node' Level')
    (x : Session Node Level × α) (y : Session Node' Level' × α) : Prop :=
  R.SessionsAlike x.1 y.1 ∧ x.2 = y.2

theorem withToken_alike {σ σ' : Type} [StateStack σ Node] [StateStack σ' Node']
    {K : σ → σ' → Prop} {c : Configuration σ Level} {c' : Configuration σ' Level'}
    (hc : R.ConfigurationsAlike K c c') (token : Token) :
    R.ConfigurationsAlike K (Session.withToken c token) (Session.withToken c' token) :=
  ⟨hc.stack, hc.top, congrArg (· ++ [token]) hc.buffer, hc.depth⟩

/-- A dry run starts from where the record stands. -/
theorem dryRun_alike {c : Configuration (Record Node) Level}
    {c' : Configuration (Record Node') Level'} (hc : R.ConfigurationsAlike R.RecordsAlike c c') :
    R.ConfigurationsAlike R.DryRunsAlike (Session.dryRun c) (Session.dryRun c') := by
  obtain ⟨n, n', htop, htop', hn, hlevel⟩ := hc.top
  refine ⟨⟨hc.stack.entries, .nil, hc.stack.accepted⟩, ⟨n, n', ?_, ?_, hn, hlevel⟩, hc.buffer,
    hc.depth⟩
  · exact (DryRun.shows_ofRecord (Record.shows _) 0).trans ((Record.shows _ 0).symm.trans htop)
  · exact (DryRun.shows_ofRecord (Record.shows _) 0).trans ((Record.shows _ 0).symm.trans htop')

theorem start_alike (h : R.Respected F t t') (moves : Nat) :
    Alike F R.SessionsAlike (Session.start t moves) (Session.start t' moves) := by
  refine (h.root h.startup).bind fun root root' hroot => ?_
  refine (run_alike h recordsAlike_related ?_ moves).bind fun x y hxy => .ok ⟨hxy.1, rfl⟩
  exact ⟨⟨.cons ⟨h.startup, rfl, rfl⟩ .nil, rfl, rfl⟩, ⟨_, _, rfl, rfl, h.startup, hroot⟩, rfl,
    rfl⟩

theorem wouldAccept_alike (h : R.Respected F t t') (hs : R.SessionsAlike s s') (moves : Nat)
    (symbol : Symbol) :
    Alike F Eq (s.wouldAccept t moves symbol) (s'.wouldAccept t' moves symbol) := by
  have hc := withToken_alike (dryRun_alike hs.configuration) ⟨symbol, s.next⟩
  rw [Session.wouldAccept, Session.wouldAccept, ← hs.next]
  exact (run_alike h dryRunsAlike_related hc moves).bind fun x y hxy =>
    .ok (congrArg Option.isNone hxy.2)

theorem expected_alike (h : R.Respected F t t') (hs : R.SessionsAlike s s') (moves : Nat) :
    Alike F Eq (s.expected t moves) (s'.expected t' moves) := by
  have hacc : s.accepted = s'.accepted := hs.configuration.stack.accepted
  rw [Session.expected, Session.expected, ← hacc]
  cases s.accepted with
  | true => exact .ok rfl
  | false =>
      rw [if_neg Bool.false_ne_true, if_neg Bool.false_ne_true]
      obtain ⟨n, n', htop, htop', hn, hlevel⟩ := hs.configuration.top
      rw [htop, htop']
      refine (h.symbols hn hlevel).bind fun xs ys hxy => ?_
      have hfilter := filterM_alike (f := s.wouldAccept t moves) (g := s'.wouldAccept t' moves)
        (fun x _ => wouldAccept_alike h hs moves x) hxy.1 hxy.2
      refine hfilter.bind fun taken taken' hperm => .ok ?_
      refine (IsAscending.ascending taken).eq_of_mem_iff (IsAscending.ascending taken') fun z => ?_
      rw [mem_ascending, mem_ascending]
      exact hperm.mem_iff

theorem consume_alike (h : R.Respected F t t') (hs : R.SessionsAlike s s') (moves : Nat)
    (symbol : Symbol) (token : Nat) :
    Alike F R.OutcomesAlike (s.consume t moves symbol token)
      (s'.consume t' moves symbol token) := by
  refine (wouldAccept_alike h hs moves symbol).bind fun b b' hb => ?_
  subst hb
  cases b with
  | false =>
      rw [if_neg Bool.false_ne_true, if_neg Bool.false_ne_true]
      refine (expected_alike h hs moves).bind fun xs ys hxy => ?_
      subst hxy
      exact .ok ⟨hs, rfl⟩
  | true =>
      rw [if_pos rfl, if_pos rfl]
      have hc := withToken_alike hs.configuration ⟨symbol, token⟩
      refine (run_alike h recordsAlike_related hc moves).bind fun x y hxy => ?_
      obtain ⟨c, stall⟩ := x
      obtain ⟨c', stall'⟩ := y
      obtain ⟨hc', rfl⟩ := hxy
      cases stall with
      | none => exact .ok ⟨⟨hc', rfl⟩, rfl⟩
      | some why => exact .ok ⟨⟨hc', rfl⟩, rfl⟩

theorem endOfInput_alike (h : R.Respected F t t') (hs : R.SessionsAlike s s') (moves : Nat) :
    Alike F R.OutcomesAlike (s.endOfInput t moves) (s'.endOfInput t' moves) := by
  rw [Session.endOfInput, Session.endOfInput, ← hs.next]
  refine (consume_alike h hs moves .endOfInput s.next).bind fun x y hxy => ?_
  obtain ⟨after, answer⟩ := x
  obtain ⟨after', answer'⟩ := y
  obtain ⟨hafter, rfl⟩ := hxy
  cases answer with
  | error rejection => exact .ok ⟨hafter, rfl⟩
  | ok u =>
      have hacc : after.accepted = after'.accepted := hafter.configuration.stack.accepted
      dsimp only at hafter ⊢
      rw [← hacc]
      cases after.accepted with
      | true => exact .ok ⟨hafter, rfl⟩
      | false =>
          rw [if_neg Bool.false_ne_true, if_neg Bool.false_ne_true]
          refine (expected_alike h hafter moves).bind fun xs ys hxy => ?_
          subst hxy
          exact .ok ⟨hafter, rfl⟩

theorem clearSteps_alike (hs : R.SessionsAlike s s') : s.clearSteps.1 = s'.clearSteps.1 ∧
    R.SessionsAlike s.clearSteps.2 s'.clearSteps.2 := by
  have hclear := hs.configuration.stack.clearSteps
  obtain ⟨n, n', htop, htop', hn, hlevel⟩ := hs.configuration.top
  refine ⟨hclear.1, ⟨⟨hclear.2, ⟨n, n', ?_, ?_, hn, hlevel⟩, hs.configuration.buffer,
    hs.configuration.depth⟩, hs.next⟩⟩
  · rw [← htop]
    change Option.map _ (List.map _ _)[0]? = Option.map _ _
    rw [List.getElem?_map, Option.map_map]
    rfl
  · rw [← htop']
    change Option.map _ (List.map _ _)[0]? = Option.map _ _
    rw [List.getElem?_map, Option.map_map]
    rfl

/-- **Every operation** returns the same on both tables and keeps the sessions
alike. -/
theorem operation_alike (h : R.Respected F t t') (hs : R.SessionsAlike s s') (moves : Nat)
    (operation : Session.Operation) :
    Alike F R.OutcomesAlike (s.perform t moves operation) (s'.perform t' moves operation) := by
  cases operation with
  | consume symbol token =>
      refine (consume_alike h hs moves symbol token).bind fun x y hxy => ?_
      exact .ok ⟨hxy.1, congrArg _ hxy.2⟩
  | endOfInput =>
      refine (endOfInput_alike h hs moves).bind fun x y hxy => ?_
      exact .ok ⟨hxy.1, congrArg _ hxy.2⟩
  | clear => exact (start_alike h moves).bind fun x y hxy => .ok ⟨hxy, rfl⟩
  | clearSteps =>
      obtain ⟨hsteps, hafter⟩ := clearSteps_alike hs
      exact .ok ⟨hafter, congrArg Session.Answer.drained hsteps⟩
  | expected =>
      refine (expected_alike h hs moves).bind fun xs ys hxy => ?_
      exact .ok ⟨hs, congrArg Session.Answer.expected hxy⟩

theorem converse_alike (h : R.Respected F t t') (hs : R.SessionsAlike s s') (moves : Nat)
    (operations : List Session.Operation) :
    Alike F Eq (s.converse t moves operations) (s'.converse t' moves operations) := by
  induction operations generalizing s s' with
  | nil => exact .ok rfl
  | cons operation rest ih =>
      refine (operation_alike h hs moves operation).bind fun x y hxy => ?_
      obtain ⟨after, answer⟩ := x
      obtain ⟨after', answer'⟩ := y
      obtain ⟨hafter, rfl⟩ := hxy
      refine (ih hafter).bind fun replies replies' hreplies => .ok ?_
      have hsteps : after.steps = after'.steps := hafter.configuration.stack.steps
      have hacc : after.accepted = after'.accepted := hafter.configuration.stack.accepted
      rw [hreplies, hsteps, hacc]

/-- **No sequence of operations** tells two tables apart that correspond. -/
theorem transcript_alike (h : R.Respected F t t') (moves : Nat)
    (operations : List Session.Operation) :
    Alike F Eq (Session.transcript t moves operations)
      (Session.transcript t' moves operations) :=
  (start_alike h moves).bind fun _ _ hs => converse_alike h hs moves operations

end Sessions

end Correspondence
end BoundedLR
