import BoundedLR.Proofs.AcceptedTables
import BoundedLR.Proofs.FailingRuns
import BoundedLR.Proofs.StoredParsers

/-!
# When reading an accepted table is safe

An accepted table is read in place and without further checks, whatever it
contains.  Then every read finds what it looks for, except for one: a node may be
given the index of a reduction that it does not have.  The index has been found in
a level, and the level has been checked together with the node that it is stored
in.  But a level may be entered from another node, with fewer reductions.

So the reads of a session are safe exactly if no node is given such an index
(`transcript_ne_outOfBounds_iff`).  Whether that happens depends on what is on the
stack.  `Coherent` is what can be seen in the table itself: wherever its references
lead from the startup node, a level holds indices of reductions of the node that
it is used for.  That is enough, and tables that have been written from a grammar
are coherent.

A table is compared with itself for this.  The correspondence `sight` joins every
node and every level that the references lead to with itself, so configurations
that are alike are just those that have not left the table.
-/

namespace BoundedLR

namespace ParseTable

variable {Node Level : Type}

/-- At this level of the node a reduction may be due. -/
def Offers (t : ParseTable Node Level) (n : Node) (l : Level) (index : Nat) : Prop :=
  t.always n = .ok (some index) ∨ ∃ s, t.find n l s = .ok (some (.reduce index))

/-- The nodes that the references of a table lead to from its startup node, each
with the levels that it is used with. -/
inductive Reaches (t : ParseTable Node Level) : Node → Level → Prop where
  | startup {root : Level} : t.root t.startup = .ok root → Reaches t t.startup root
  | descend {n : Node} {l below : Level} {s : Symbol} : Reaches t n l →
      t.find n l s = .ok (some (.descend below)) → Reaches t n below
  | shift {n target : Node} {l root : Level} {s : Symbol} {predict : Bool} : Reaches t n l →
      t.find n l s = .ok (some (.shift target predict)) → t.root target = .ok root →
      Reaches t target root
  | landing {n last : Node} {l m root : Level} {index : Nat} {landing : Landing Node} :
      Reaches t n l → t.Offers n l index → Reaches t last m →
      t.landing n index last = .ok (some landing) → t.root landing.target = .ok root →
      Reaches t landing.target root

end ParseTable

namespace Table

/-- Wherever the references of the table lead, a reduction that may be due at a level
is one of the node that the level is used with. -/
def Coherent (t : Table) : Prop :=
  ∀ n l index, t.table.Reaches n l → t.table.Offers n l index → t.HasReduction n index

/-- What the references of a table lead to, joined with itself. -/
def sight (t : Table) : Correspondence Nat Nat Nat Nat where
  node n n' := n = n' ∧ t.IsNode n ∧ ∀ root, t.rootLevel n = .ok root → t.table.Reaches n root
  level n _ l l' := l = l' ∧ t.IsLevel l ∧ t.table.Reaches n l
  reduction n _ index := ∃ l, t.table.Reaches n l ∧ t.table.Offers n l index

theorem outOfBounds_ne : Fault.outOfBounds ≠ .outOfFuel := nofun

variable {t : Table}

/-! ## Reads -/

/-- What is found at a level leads on in sight. -/
theorem sight_action {n l : Nat} {s : Symbol} {action : Action Nat Nat}
    (hl : t.table.Reaches n l) (hfind : t.find l s = .ok (some action))
    (hnames : action.Names t.IsNode t.IsLevel) : t.sight.ActionsAlike n n action action := by
  cases action with
  | descend below => exact .descend ⟨rfl, hnames, hl.descend hfind⟩
  | shift target predict => exact .shift ⟨rfl, hnames, fun root hroot => hl.shift hfind hroot⟩
  | reduce index => exact .reduce ⟨l, hl, .inr ⟨s, hfind⟩⟩

/-- **In sight a read goes wrong only if the table is not coherent.** -/
theorem respected_sight (t : Table) :
    t.sight.Respected (fun e => e = .outOfBounds → ¬t.Coherent) t.table t.table where
  outOfFuel h := nomatch h
  startup := ⟨rfl, t.isNode_startup, fun _ hroot => .startup hroot⟩
  root := by
    rintro n _ ⟨rfl, hn, hreaches⟩
    obtain ⟨l, hl, hlevel⟩ := hn.exists_root
    exact .of_eq_ok hl hl ⟨rfl, hlevel, hreaches l hl⟩
  always := by
    rintro n _ ⟨rfl, hn, hreaches⟩
    obtain ⟨always, halways, -⟩ := hn.exists_always
    obtain ⟨l, hl, -⟩ := hn.exists_root
    refine .of_eq_ok halways halways ⟨rfl, fun index hi => ⟨l, hreaches l hl, .inl ?_⟩⟩
    rw [← hi]
    exact halways
  find := by
    rintro n _ l _ s ⟨rfl, -⟩ ⟨rfl, hlevel, hl⟩
    obtain ⟨found, hfound, hnames⟩ := hlevel.exists_find s
    refine .of_eq_ok hfound hfound ?_
    cases found with
    | none => exact .none
    | some action => exact .some (sight_action hl hfound (hnames action rfl))
  symbols := by
    rintro n _ l _ - ⟨rfl, hlevel, -⟩
    obtain ⟨xs, hxs⟩ := hlevel.exists_symbols
    exact .of_eq_ok hxs hxs ⟨List.Perm.refl xs, fun _ => rfl⟩
  property := by
    rintro n _ index ⟨rfl, hn, -⟩ ⟨l, hl, hoffers⟩
    by_cases hr : t.HasReduction n index
    · obtain ⟨q, hq⟩ := hn.exists_property hr
      exact .of_eq_ok hq hq rfl
    · rw [property_of_not_hasReduction hr]
      exact .fault fun _ hcoherent => hr (hcoherent n l index hl hoffers)
  landing := by
    rintro n _ last _ index ⟨rfl, hn, -⟩ ⟨l, hl, hoffers⟩ ⟨rfl, hlast, hreaches⟩
    by_cases hr : t.HasReduction n index
    · obtain ⟨found, hfound, htarget⟩ := hn.exists_landing hr last
      obtain ⟨below, hbelow, -⟩ := hlast.exists_root
      refine .of_eq_ok hfound hfound ?_
      cases found with
      | none => exact .none
      | some landing =>
          refine .some ⟨⟨rfl, htarget landing rfl, fun root hroot => ?_⟩, rfl⟩
          exact .landing hl hoffers (hreaches below hbelow) hfound hroot
    · have hfault : t.table.landing n index last = .error .outOfBounds :=
        bind_eq_error.2 (.inl (reduction_of_not_hasReduction hr))
      rw [hfault]
      exact .fault fun _ hcoherent => hr (hcoherent n l index hl hoffers)

/-! ## Runs -/

section Runs

variable {σ : Type} [StateStack σ Nat] [LawfulStack σ Nat] {K : σ → σ → Prop}
  {c c' : Configuration σ Nat} {moves : Nat}

/-- A move stays in sight. -/
theorem sight_of_moved (hK : t.sight.StacksRelated K) (hc : t.sight.ConfigurationsAlike K c c)
    (h : Machine.step t.table c = .ok (.moved c')) : t.sight.ConfigurationsAlike K c' c' := by
  have halike := Correspondence.step_alike t.respected_sight hK hc
  rw [h] at halike
  cases halike with
  | ok hprogress =>
      cases hprogress with
      | moved hnext => exact hnext

omit [LawfulStack σ Nat] in
/-- **A move leaves the table** only by giving the topmost node the index of a
reduction that it does not have. -/
theorem not_hasReduction_of_step (hc : t.sight.ConfigurationsAlike K c c)
    (h : Machine.step t.table c = .error .outOfBounds) :
    StateStack.isAccepted c.stack = false ∧ ∃ n index, StateStack.peek c.stack 0 = some n ∧
      Machine.Consults t.table c n (.reduce index) ∧ ¬t.HasReduction n index := by
  obtain ⟨ha, hcases⟩ := Machine.step_eq_error h
  obtain ⟨n, -, htop, -, ⟨-, hn, -⟩, -, hlevel, -⟩ := hc.top
  refine ⟨ha, ?_⟩
  rcases hcases with hnone | ⟨top, htop', hcases⟩
  · rw [htop] at hnone
    cases hnone
  rw [htop] at htop'
  cases htop'
  rcases hcases with halways | ⟨token, hfind⟩ | ⟨action, hconsults, hbreaks⟩
  · obtain ⟨always, hok, -⟩ := hn.exists_always
    cases hok.symm.trans halways
  · obtain ⟨found, hok, -⟩ := hlevel.exists_find token.symbol
    cases hok.symm.trans hfind
  cases hbreaks with
  | shift hroot =>
      cases hconsults with
      | @found token _ _ _ hfind =>
          obtain ⟨found, hok, hnames⟩ := hlevel.exists_find token.symbol
          cases hok.symm.trans hfind
          obtain ⟨root, hok, -⟩ := IsNode.exists_root (hnames _ rfl)
          cases hok.symm.trans hroot
  | @property index hproperty =>
      refine ⟨n, index, htop, hconsults, fun hr => ?_⟩
      obtain ⟨q, hok⟩ := hn.exists_property hr
      cases hok.symm.trans hproperty
  | @landing index _ last _ _ hlanding =>
      refine ⟨n, index, htop, hconsults, fun hr => ?_⟩
      obtain ⟨found, hok, -⟩ := hn.exists_landing hr last
      cases hok.symm.trans hlanding
  | @root index _ last landing _ _ hlanding hroot =>
      refine ⟨n, index, htop, hconsults, fun hr => ?_⟩
      obtain ⟨found, hok, htarget⟩ := hn.exists_landing hr last
      cases hok.symm.trans hlanding
      obtain ⟨root, hok, -⟩ := (htarget landing rfl).exists_root
      cases hok.symm.trans hroot

/-- So does a run. -/
theorem exists_handsOver_of_run (hK : t.sight.StacksRelated K)
    (hc : t.sight.ConfigurationsAlike K c c)
    (h : Machine.run t.table moves c = .error .outOfBounds) :
    ∃ n index, Machine.HandsOver t.table moves c n index ∧ ¬t.HasReduction n index := by
  obtain ⟨c', hv, hs⟩ := (Machine.run_eq_error outOfBounds_ne).1 h
  have hc' := hv.keeps (P := fun c => t.sight.ConfigurationsAlike K c c)
    (fun _ _ => sight_of_moved hK) hc
  obtain ⟨ha, n, index, htop, hconsults, hr⟩ := not_hasReduction_of_step hc' hs
  exact ⟨n, index, ⟨c', hv, ha, htop, hconsults⟩, hr⟩

end Runs

/-! ## Sessions -/

section Sessions

open Session

/-- Some node is given the index of a reduction that it does not have. -/
def Misled (t : Table) (moves : Nat) : Prop :=
  ∃ n index, HandsOver t.table moves n index ∧ ¬t.HasReduction n index

variable {s : Session Nat Nat} {moves : Nat}

/-- A session that operations lead to is in sight. -/
theorem sight_of_reachable (h : Reachable t.table moves s) : t.sight.SessionsAlike s s := by
  induction h with
  | start hstart =>
      have halike := Correspondence.start_alike t.respected_sight moves
      rw [hstart] at halike
      cases halike with
      | ok hs => exact hs
  | @perform s after operation answer _ hnow ih =>
      have halike := Correspondence.operation_alike t.respected_sight ih moves operation
      rw [hnow] at halike
      cases halike with
      | ok hs => exact hs.1

/-- A session is put to its beginning by a run. -/
theorem misled_of_start (h : Session.start t.table moves = .error .outOfBounds) :
    t.Misled moves := by
  obtain ⟨root, hroot, hlevel⟩ := t.isNode_startup.exists_root
  have hc : t.sight.ConfigurationsAlike t.sight.RecordsAlike
      ⟨Record.start t.table.startup, [], ⟨root, 0⟩⟩
      ⟨Record.start t.table.startup, [], ⟨root, 0⟩⟩ := by
    have hn := t.respected_sight.startup
    exact ⟨⟨.cons ⟨hn, rfl, rfl⟩ .nil, rfl, rfl⟩, ⟨_, _, rfl, rfl, hn, rfl, hlevel, .startup hroot⟩,
      rfl, rfl⟩
  rcases bind_eq_error.1 h with hroot' | ⟨root', hroot', h⟩
  · cases hroot.symm.trans hroot'
  cases hroot.symm.trans hroot'
  rcases bind_eq_error.1 h with hrun | ⟨r, -, h⟩
  · obtain ⟨n, index, hhands, hr⟩ :=
      exists_handsOver_of_run Correspondence.recordsAlike_related hc hrun
    exact ⟨n, index, .starting hroot hhands, hr⟩
  · cases h

/-- A symbol is tried out by a run. -/
theorem misled_of_wouldAccept (hs : Reachable t.table moves s) {symbol : Symbol}
    (h : s.wouldAccept t.table moves symbol = .error .outOfBounds) :
    t.Misled moves := by
  have hc := Correspondence.withToken_alike
    (Correspondence.dryRun_alike (sight_of_reachable hs).configuration) ⟨symbol, s.next⟩
  rcases bind_eq_error.1 h with hrun | ⟨r, -, h⟩
  · obtain ⟨n, index, hhands, hr⟩ :=
      exists_handsOver_of_run Correspondence.dryRunsAlike_related hc hrun
    exact ⟨n, index, .trying hs hhands, hr⟩
  · cases h

theorem misled_of_expected (hs : Reachable t.table moves s)
    (h : s.expected t.table moves = .error .outOfBounds) :
    t.Misled moves := by
  rw [Session.expected] at h
  split at h
  · cases h
  obtain ⟨n, -, htop, -, -, -, hlevel, -⟩ := (sight_of_reachable hs).configuration.top
  obtain ⟨xs, hxs⟩ := hlevel.exists_symbols
  rw [htop, Read.ofOption, ok_bind] at h
  rcases bind_eq_error.1 h with hsymbols | ⟨xs, -, h⟩
  · cases hxs.symm.trans hsymbols
  rcases bind_eq_error.1 h with hfilter | ⟨taken, -, h⟩
  · obtain ⟨symbol, -, hwould⟩ := exists_of_filterM_eq_error hfilter
    exact misled_of_wouldAccept hs hwould
  · cases h

theorem misled_of_consume (hs : Reachable t.table moves s) {symbol : Symbol} {token : Nat}
    (h : s.consume t.table moves symbol token = .error .outOfBounds) :
    t.Misled moves := by
  rcases bind_eq_error.1 h with hwould | ⟨b, hwould, h⟩
  · exact misled_of_wouldAccept hs hwould
  cases b with
  | false =>
      rcases bind_eq_error.1 h with hexpected | ⟨xs, -, h⟩
      · exact misled_of_expected hs hexpected
      · cases h
  | true =>
      rcases bind_eq_error.1 h with hrun | ⟨⟨c, stall⟩, -, h⟩
      · have hc := Correspondence.withToken_alike (sight_of_reachable hs).configuration
          ⟨symbol, token⟩
        obtain ⟨n, index, hhands, hr⟩ :=
          exists_handsOver_of_run Correspondence.recordsAlike_related hc hrun
        exact ⟨n, index, .taking hs hwould hhands, hr⟩
      · cases stall with
        | none => cases h
        | some why => cases h

/-- **An operation leaves the table** only by a run that does. -/
theorem misled_of_perform (hs : Reachable t.table moves s) {operation : Operation}
    (h : s.perform t.table moves operation = .error .outOfBounds) :
    t.Misled moves := by
  cases operation with
  | consume symbol token =>
      rcases bind_eq_error.1 h with hconsume | ⟨r, -, h⟩
      · exact misled_of_consume hs hconsume
      · cases h
  | endOfInput =>
      rcases bind_eq_error.1 h with hend | ⟨r, -, h⟩
      · rcases bind_eq_error.1 hend with hconsume | ⟨⟨after, answer⟩, hconsume, hend⟩
        · exact misled_of_consume hs hconsume
        have hperform : s.perform t.table moves (.consume .endOfInput s.next) =
            .ok (after, .taken answer) := bind_eq_ok.2 ⟨(after, answer), hconsume, rfl⟩
        have hafter : Reachable t.table moves after := hs.perform hperform
        cases answer with
        | error rejection => cases hend
        | ok u =>
            dsimp only at hend
            split at hend
            · cases hend
            · rcases bind_eq_error.1 hend with hexpected | ⟨xs, -, hend⟩
              · exact misled_of_expected hafter hexpected
              · cases hend
      · cases h
  | clear =>
      rcases bind_eq_error.1 h with hstart | ⟨after, -, h⟩
      · exact misled_of_start hstart
      · cases h
  | clearSteps => cases h
  | expected =>
      rcases bind_eq_error.1 h with hexpected | ⟨xs, -, h⟩
      · exact misled_of_expected hs hexpected
      · cases h

end Sessions

end Table

/-! ## Tables that have been written -/

namespace Correspondence

variable {Node Level Node' Level' : Type} {F : Fault → Prop}
  {R : Correspondence Node Level Node' Level'} {t : ParseTable Node Level}
  {t' : ParseTable Node' Level'} {n : Node} {n' : Node'} {l : Level} {l' : Level'}

/-- What is found in one of two tables that correspond is found in the other. -/
theorem exists_action (h : R.Respected F t t') (hn : R.node n n') (hl : R.level n n' l l')
    {s : Symbol} {action' : Action Node' Level'} (hfind : t'.find n' l' s = .ok (some action')) :
    ∃ action, t.find n l s = .ok (some action) ∧ R.ActionsAlike n n' action action' := by
  obtain ⟨found, hfound, hrel⟩ := (h.find s hn hl).exists_of_ok hfind
  cases hrel with
  | some haction => exact ⟨_, hfound, haction⟩

theorem reduction_of_offers (h : R.Respected F t t') (hn : R.node n n') (hl : R.level n n' l l')
    {index : Nat} (ho : t'.Offers n' l' index) : t.Offers n l index ∧ R.reduction n n' index := by
  rcases ho with halways | ⟨s, hfind⟩
  · obtain ⟨always, halways, rfl, hvalid⟩ := (h.always hn).exists_of_ok halways
    exact ⟨.inl halways, hvalid index rfl⟩
  · obtain ⟨action, hfound, haction⟩ := exists_action h hn hl hfind
    cases haction with
    | reduce hr => exact ⟨.inr ⟨s, hfound⟩, hr⟩

/-- Where the references of one table lead, those of the other lead to what belongs
there. -/
theorem exists_of_reaches (h : R.Respected F t t') (hr : t'.Reaches n' l') :
    ∃ n l, t.Reaches n l ∧ R.node n n' ∧ R.level n n' l l' := by
  induction hr with
  | startup hroot =>
      obtain ⟨root, hroot, hrel⟩ := (h.root h.startup).exists_of_ok hroot
      exact ⟨_, root, .startup hroot, h.startup, hrel⟩
  | descend _ hfind ih =>
      obtain ⟨n, l, hr, hn, hl⟩ := ih
      obtain ⟨action, hfound, haction⟩ := exists_action h hn hl hfind
      cases haction with
      | descend hbelow => exact ⟨n, _, hr.descend hfound, hn, hbelow⟩
  | shift _ hfind hroot ih =>
      obtain ⟨n, l, hr, hn, hl⟩ := ih
      obtain ⟨action, hfound, haction⟩ := exists_action h hn hl hfind
      cases haction with
      | shift htarget =>
          obtain ⟨root, hroot, hrel⟩ := (h.root htarget).exists_of_ok hroot
          exact ⟨_, root, hr.shift hfound hroot, htarget, hrel⟩
  | landing _ hoffers _ hlanding hroot ih ihlast =>
      obtain ⟨n, l, hr, hn, hl⟩ := ih
      obtain ⟨last, m, hrlast, hlast, -⟩ := ihlast
      obtain ⟨hoffers, hreduction⟩ := reduction_of_offers h hn hl hoffers
      obtain ⟨found, hfound, hrel⟩ := (h.landing hn hreduction hlast).exists_of_ok hlanding
      cases hrel with
      | some hlandings =>
          obtain ⟨root, hroot, hrel⟩ := (h.root hlandings.1).exists_of_ok hroot
          exact ⟨_, root, .landing hr hoffers hrlast hfound hroot, hlandings.1, hrel⟩

end Correspondence

/-- **What has been written for a grammar is coherent**, so reading it is safe. -/
theorem Grammar.coherent_of_toTable {grammar : Grammar} {bound : Nat} {p : Parser} {w : Width}
    {b : Buffer} {t : Table} (hp : grammar.compile bound = .ok p) (hb : p.toTable w = .ok b)
    (ht : Table.ofWords b.words = .ok t) : t.Coherent := by
  obtain ⟨hcontains, hrespected⟩ := Grammar.respected_of_toTable hp hb ht
  intro place l index hreaches hoffers
  obtain ⟨k, level, -, hk, hl⟩ := Correspondence.exists_of_reaches hrespected hreaches
  obtain ⟨-, n, r, hn, hr⟩ := Correspondence.reduction_of_offers hrespected hk hl hoffers
  obtain ⟨n', hn', hstores⟩ := Parser.stores_of_node hcontains hk
  rw [hn, Option.some.injEq] at hn'
  subst hn'
  refine ⟨_, Table.reductionCount_eq_ok hstores, ?_⟩
  rw [Node.stored, List.length_map]
  exact (List.getElem?_eq_some_iff.1 hr).1

/-! ## Safety -/

namespace Table

open Session

/-- **Reading a table is safe** exactly if no node is given the index of a reduction
that it does not have.  No other read of any sequence of operations can leave an
accepted table.  If the table is coherent, no node is given such an index. -/
theorem transcript_ne_outOfBounds_iff (t : Table) (moves : Nat) :
    ((∀ operations, transcript t.table moves operations ≠ .error .outOfBounds) ↔
      ∀ n index, HandsOver t.table moves n index → t.HasReduction n index) ∧
    (t.Coherent → ∀ operations, transcript t.table moves operations ≠ .error .outOfBounds) := by
  refine ⟨⟨fun hsafe n index hhands => ?_, fun hall operations hfails => ?_⟩,
    fun hcoherent operations hfails => ?_⟩
  · by_contra hr
    obtain ⟨operations, hfails⟩ := exists_transcript_eq_error_of_handsOver outOfBounds_ne hhands
      (property_of_not_hasReduction hr)
    exact hsafe operations hfails
  · have hmisled : t.Misled moves := by
      rcases exists_transcript_eq_error.1 ⟨operations, hfails⟩ with
        hstart | ⟨s, operation, hs, hperform⟩
      · exact misled_of_start hstart
      · exact misled_of_perform hs hperform
    obtain ⟨n, index, hhands, hr⟩ := hmisled
    exact hr (hall n index hhands)
  · have halike := Correspondence.transcript_alike t.respected_sight moves operations
    exact halike.fault_of_error hfails rfl hcoherent

/-- The table of the forked grammar is safe to read. -/
theorem transcript_ne_outOfBounds_forked : ∃ p b t, Grammar.forked.compile 1 = .ok p ∧
    p.toTable .bits16 = .ok b ∧ ofWords b.words = .ok t ∧ t.Coherent ∧
    ∀ moves operations, transcript t.table moves operations ≠ .error .outOfBounds := by
  obtain ⟨p, b, hp, hb⟩ := Grammar.exists_of_stores
    (show Grammar.forked.stores 1 .bits16 = true by decide +kernel)
  obtain ⟨-, -, hcontains⟩ := Grammar.contains_of_toTable hp hb
  have ht : ofWords b.words = .ok ⟨b.words, _, Scan.header_eq_ok.2 ⟨_, hcontains⟩⟩ :=
    ofWords_eq_ok.2 rfl
  have hcoherent := Grammar.coherent_of_toTable hp hb ht
  exact ⟨p, b, _, hp, hb, ht, hcoherent,
    fun moves => (transcript_ne_outOfBounds_iff _ moves).2 hcoherent⟩

/-- A table with two nodes, at words 2 and 10.  The first has no reduction, and its
level leads on to the level of the second, at word 15, where the first reduction is
due. -/
def crossedWords : Array Nat :=
  #[2, 2,
    1, 0, 0, 2, 1, 0, 0, 15,
    1, 1, 0, 1, 19, 1, 0, 3, 0, 1, 0, 1, 0, 0, 0]

/-- **Not every accepted table is safe to read**: the second token of this one asks the
first node for a reduction. -/
theorem transcript_crossedWords : ∃ t, ofWords crossedWords = .ok t ∧
    transcript t.table 10 [.consume ⟨.terminal, 0⟩ 0, .consume ⟨.terminal, 0⟩ 1] =
      .error .outOfBounds := by
  refine ⟨⟨crossedWords, ⟨2, 2⟩, by decide +kernel⟩, ofWords_eq_ok.2 rfl, ?_⟩
  rfl

end Table
end BoundedLR
