import BoundedLR.Proofs.ReachableSessions
import BoundedLR.Table.View

/-!
# Suggestions are exact

`Session.expected` only tries out the symbols that have an entry at the level under the
cursor, and yet it misses none that would be taken.  This does not depend on the table
being any good.  All that is asked of a table is that its levels list whatever can be
looked up in them (`ParseTable.Lists`), and a stored table does so even if a level is not
sorted or lists a symbol twice: halving may miss an entry, but what it finds is an entry
of the level, so the level lists it.  A symbol that is listed and can not be looked up is
tried out and rejected.

So the symbols that are expected, and those that a rejection names, are exactly the ones
that would be taken in place of the rejected symbol.
-/

namespace BoundedLR

/-! ## Filtering -/

section Filter

variable {α : Type} {f : α → Read Bool} {xs ys : List α}

theorem filterAuxM_eq_ok {kept : List α} (h : xs.filterAuxM f kept = .ok ys) :
    (∀ x ∈ xs, ∃ b, f x = .ok b) ∧
      ∀ x, x ∈ ys ↔ x ∈ kept ∨ x ∈ xs ∧ f x = .ok true := by
  induction xs generalizing kept with
  | nil =>
      cases Except.ok.inj h
      exact ⟨List.forall_mem_nil _, fun x => by simp⟩
  | cons y xs ih =>
      obtain ⟨b, hb, h⟩ := bind_eq_ok.1 h
      obtain ⟨hall, hmem⟩ := ih h
      refine ⟨List.forall_mem_cons.2 ⟨⟨b, hb⟩, hall⟩, fun x => ?_⟩
      rw [hmem]
      cases b with
      | true =>
          simp only [cond_true, List.mem_cons]
          constructor
          · rintro ((rfl | hx) | ⟨hx, hf⟩)
            · exact .inr ⟨.inl rfl, hb⟩
            · exact .inl hx
            · exact .inr ⟨.inr hx, hf⟩
          · rintro (hx | ⟨rfl | hx, hf⟩)
            · exact .inl (.inr hx)
            · exact .inl (.inl rfl)
            · exact .inr ⟨hx, hf⟩
      | false =>
          simp only [cond_false, List.mem_cons]
          constructor
          · rintro (hx | ⟨hx, hf⟩)
            · exact .inl hx
            · exact .inr ⟨.inr hx, hf⟩
          · rintro (hx | ⟨rfl | hx, hf⟩)
            · exact .inl hx
            · cases hb.symm.trans hf
            · exact .inr ⟨hx, hf⟩

/-- **What filtering leaves** is what passes the test, and every member has been
tested. -/
theorem filterM_eq_ok (h : xs.filterM f = .ok ys) :
    (∀ x ∈ xs, ∃ b, f x = .ok b) ∧ ∀ x, x ∈ ys ↔ x ∈ xs ∧ f x = .ok true := by
  obtain ⟨kept, haux, h⟩ := bind_eq_ok.1 h
  cases Except.ok.inj h
  obtain ⟨hall, hmem⟩ := filterAuxM_eq_ok haux
  refine ⟨hall, fun x => ?_⟩
  rw [List.mem_reverse, hmem]
  exact or_iff_right List.not_mem_nil

/-- Tests that agree on all members leave the same. -/
theorem filterM_congr {g : α → Read Bool} (h : ∀ x ∈ xs, f x = g x) :
    xs.filterM f = xs.filterM g := by
  have haux : ∀ kept, xs.filterAuxM f kept = xs.filterAuxM g kept := by
    induction xs with
    | nil => exact fun _ => rfl
    | cons y xs ih =>
        intro kept
        rw [List.filterAuxM, List.filterAuxM, h y List.mem_cons_self]
        exact congrArg _ (funext fun b => ih (fun x hx => h x (List.mem_cons_of_mem y hx)) _)
  rw [List.filterM, List.filterM, haux]

end Filter

/-! ## What is not listed cannot be looked up -/

/-- A symbol that is not listed is looked up in vain. -/
def ParseTable.Misses {Node Level : Type} (t : ParseTable Node Level) : Prop :=
  ∀ {top : Node} {level : Level} {symbols : List Symbol} {symbol : Symbol},
    t.symbols top level = .ok symbols → symbol ∉ symbols → t.find top level symbol = .ok none

theorem ParseTable.Misses.lists {Node Level : Type} {t : ParseTable Node Level} (h : t.Misses) :
    t.Lists := by
  intro top level symbol action symbols hfind hsymbols
  by_contra hmem
  cases hfind.symm.trans (h hsymbols hmem)

theorem Parser.misses (p : Parser) : p.table.Misses := by
  intro top level symbols symbol hsymbols hmem
  cases Except.ok.inj hsymbols
  have hnone : level.find? symbol = none := Trie.find?_eq_none_iff.2 hmem
  change Except.ok ((level.find? symbol).map Parser.actionOf) = _
  rw [hnone]
  rfl

namespace Table

variable {t : Table} {level entries code halvings low high : Nat}

/-- Halving can only find what is there, whether or not the codes ascend. -/
theorem searchCode_of_forall_ne
    (h : ∀ index < entries, ∃ here, t.entryCode level index = .ok here ∧ here ≠ code)
    (hhigh : high ≤ entries) : t.searchCode level code halvings low high = .ok none := by
  induction halvings generalizing low high with
  | zero => rfl
  | succ halvings ih =>
      rw [searchCode]
      split
      · rename_i hlt
        have hmiddle : (low + high) / 2 < high := by omega
        obtain ⟨here, hhere, hne⟩ := h _ (Nat.lt_of_lt_of_le hmiddle hhigh)
        dsimp only
        rw [hhere, ok_bind, if_neg hne]
        split
        · exact ih hhigh
        · exact ih (Nat.le_of_lt (Nat.lt_of_lt_of_le hmiddle hhigh))
      · rfl

/-- **In a stored level only what is listed can be looked up**, even if the level is not
sorted or lists a symbol twice. -/
theorem misses (t : Table) : t.table.Misses := by
  intro top level symbols symbol hsymbols hmem
  obtain ⟨entries, hentries, hlisted⟩ := bind_eq_ok.1 hsymbols
  have hcodes : ∀ index < entries, ∃ here, t.entryCode level index = .ok here ∧
      here ≠ symbol.code := by
    intro index hindex
    obtain ⟨same, hsame, hread⟩ :=
      forall₂_mem_left (mapM_eq_ok.1 hlisted) (List.mem_range.2 hindex)
    obtain ⟨here, hhere, hread⟩ := bind_eq_ok.1 hread
    refine ⟨here, hhere, ?_⟩
    rintro rfl
    rw [Symbol.ofCode?_code] at hread
    cases Except.ok.inj hread
    exact hmem hsame
  have hsearch : t.search level symbol = .ok none := by
    rw [search, hentries, ok_bind]
    exact searchCode_of_forall_ne hcodes (Nat.le_refl entries)
  change t.find level symbol = .ok none
  rw [find, hsearch]
  rfl

end Table

/-! ## Symbols that are not listed -/

namespace Machine

variable {σ Node Level : Type} [StateStack σ Node] {t : ParseTable Node Level}
  {c : Configuration σ Level} {top : Node} {stall : Option Stall} {token : Token}

/-- A reduction that leads nowhere leads nowhere with another token in the buffer. -/
theorem perform_reduce_withToken {index : Nat} {why : Stall}
    (h : perform t c top (.reduce index) = .ok (.stalled why)) :
    perform t (Session.withToken c token) top (.reduce index) = .ok (.stalled why) := by
  rw [perform] at h ⊢
  obtain ⟨property, hproperty, h⟩ := bind_eq_ok.1 h
  rw [hproperty, ok_bind]
  split at h
  · cases h
  · rename_i haccepts
    rw [if_neg haccepts, show (Session.withToken c token).stack = c.stack from rfl]
    split at h
    · exact h
    · obtain ⟨landing, hlanding, h⟩ := bind_eq_ok.1 h
      rw [hlanding, ok_bind]
      cases landing with
      | none => exact h
      | some landing =>
          obtain ⟨root, -, h⟩ := bind_eq_ok.1 h
          cases h

/-- The input has been accepted: there is no place for another token. -/
theorem step_withToken_of_accepted (h : StateStack.isAccepted c.stack = true) :
    step t (Session.withToken c token) = .ok (.stalled .afterAcceptance) := by
  rw [step_of_accepted (c := Session.withToken c token) h, if_neg]
  rw [Session.withToken, List.isEmpty_iff]
  exact List.append_ne_nil_of_right_ne_nil _ (List.cons_ne_nil token [])

/-- **On a symbol that is not listed** a machine that has come to its end stalls at
once. -/
theorem exists_stalled_withToken (ht : t.Misses) (hends : Ends t c stall)
    (hdepth : c.cursor.depth = c.buffer.length) (hrunning : StateStack.isAccepted c.stack = false)
    (htop : StateStack.peek c.stack 0 = some top) {listed : List Symbol}
    (hlisted : t.symbols top c.cursor.level = .ok listed) (hmem : token.symbol ∉ listed) :
    ∃ why, step t (Session.withToken c token) = .ok (.stalled why) := by
  rw [step_eq_resume (c := Session.withToken c token) hrunning htop]
  obtain ⟨r, hr, hne⟩ : ∃ r, step t c = .ok r ∧ ∀ next, r ≠ .moved next := by
    cases hends with
    | waiting h => exact ⟨_, h, fun _ => by rintro ⟨⟩⟩
    | stalled h => exact ⟨_, h, fun _ => by rintro ⟨⟩⟩
  rw [step_eq_resume hrunning htop] at hr
  obtain ⟨always, halways, hr⟩ := bind_eq_ok.1 hr
  change ∃ why, ((if c.cursor.depth = 0 then t.always top else .ok none) >>= _) = _
  rw [halways, ok_bind]
  cases always with
  | some index =>
      change perform t c top (.reduce index) = _ at hr
      cases r with
      | moved next => exact absurd rfl (hne next)
      | waiting => exact absurd hr perform_ne_waiting
      | stalled why => exact ⟨why, perform_reduce_withToken hr⟩
  | none =>
      have hthere : (Session.withToken c token).buffer[c.cursor.depth]? = some token := by
        rw [Session.withToken, hdepth, List.getElem?_concat_length]
      refine ⟨.rejected c.cursor.depth, ?_⟩
      rw [resume, show (Session.withToken c token).cursor = c.cursor from rfl, hthere]
      simp only [ht hlisted hmem, ok_bind]
      rfl

end Machine

/-! ## Expected and taken -/

namespace Session

open Machine

variable {Node Level : Type} {t : ParseTable Node Level} {moves more : Nat}
  {s after : Session Node Level} {symbols : List Symbol} {symbol : Symbol}

/-- The token is taken, if enough moves are allowed. -/
def Takes (t : ParseTable Node Level) (s : Session Node Level) (symbol : Symbol) (token : Nat) :
    Prop :=
  ∃ moves after, s.consume t moves symbol token = .ok (after, .ok ())

/-- The symbols are those that a session takes. -/
structure Suggests (t : ParseTable Node Level) (s : Session Node Level) (symbols : List Symbol) :
    Prop where
  /-- They are in ascending order, each of them once. -/
  ascending : symbols.Pairwise fun a b => compare a b = .lt
  /-- They are the symbols that are taken, whatever the index of the token. -/
  mem_iff : ∀ symbol token, symbol ∈ symbols ↔ s.Takes t symbol token
  /-- Any other symbol is rejected, the session stays as it is, and the rejection names
  the same symbols. -/
  rejects : ∀ symbol token, symbol ∉ symbols →
    ∃ moves, s.consume t moves symbol token = .ok (s, .error ⟨symbol, token, symbols⟩)

/-- What a session expects has been tried out. -/
theorem expected_eq_ok (h : s.expected t moves = .ok symbols) :
    (s.accepted = true ∧ symbols = []) ∨ s.accepted = false ∧ ∃ top listed,
      StateStack.peek s.configuration.stack 0 = some top ∧
      t.symbols top s.configuration.cursor.level = .ok listed ∧
      (∀ symbol ∈ listed, ∃ b, s.wouldAccept t moves symbol = .ok b) ∧
      ∃ taken, listed.filterM (s.wouldAccept t moves) = .ok taken ∧
        symbols = BoundedLR.ascending taken := by
  rw [expected] at h
  split at h
  · rename_i haccepted
    exact .inl ⟨haccepted, (Except.ok.inj h).symm⟩
  · rename_i hrunning
    obtain ⟨top, htop, h⟩ := bind_eq_ok.1 h
    obtain ⟨listed, hlisted, h⟩ := bind_eq_ok.1 h
    obtain ⟨taken, htaken, h⟩ := bind_eq_ok.1 h
    refine .inr ⟨Bool.eq_false_iff.2 hrunning, top, listed, ?_, hlisted, (filterM_eq_ok htaken).1,
      taken, htaken, (Except.ok.inj h).symm⟩
    cases hpeek : StateStack.peek s.configuration.stack 0 with
    | none =>
        rw [hpeek] at htop
        cases htop
    | some node =>
        rw [hpeek] at htop
        cases Except.ok.inj htop
        rfl

theorem wouldAccept_mono {b : Bool} (hle : moves ≤ more)
    (h : s.wouldAccept t moves symbol = .ok b) : s.wouldAccept t more symbol = .ok b := by
  obtain ⟨r, hrun, hb⟩ := bind_eq_ok.1 h
  exact bind_eq_ok.2 ⟨r, run_mono hle hrun, hb⟩

theorem expected_mono (hle : moves ≤ more) (h : s.expected t moves = .ok symbols) :
    s.expected t more = .ok symbols := by
  rcases expected_eq_ok h with ⟨haccepted, rfl⟩ |
    ⟨hrunning, top, listed, htop, hlisted, htried, taken, htaken, rfl⟩
  · rw [expected, if_pos haccepted]
    rfl
  · have hsame : listed.filterM (s.wouldAccept t more) = .ok taken := by
      refine (filterM_congr fun symbol hmem => ?_).symm.trans htaken
      obtain ⟨b, hb⟩ := htried symbol hmem
      rw [hb, wouldAccept_mono hle hb]
    rw [expected, if_neg (by rw [hrunning]; exact Bool.false_ne_true), htop, Read.ofOption,
      ok_bind, hlisted, ok_bind, hsame]
    rfl

/-- A symbol on which the machine stalls at once would not be taken. -/
theorem wouldAccept_of_stalled {token : Nat} {why : Stall}
    (h : step t (withToken s.configuration ⟨symbol, token⟩) = .ok (.stalled why)) :
    s.wouldAccept t (moves + 1) symbol = .ok false := by
  have htried : Ends t (withToken (dryRun s.configuration) ⟨symbol, s.next⟩) (some why) :=
    Ends.of_inStep (.stalled h)
      (inStep_withToken (inStep_dryRun s.configuration)
        (show (Token.mk symbol s.next).symbol = (Token.mk symbol token).symbol from rfl)).symm
  cases htried with
  | stalled h => exact bind_eq_ok.2 ⟨_, run_of_stalled h, rfl⟩

/-- A symbol that is not expected would not be taken. -/
theorem wouldAccept_of_not_mem (ht : t.Misses) (hs : Settled t s.configuration)
    (h : s.expected t moves = .ok symbols) (hmem : symbol ∉ symbols) :
    s.wouldAccept t (moves + 1) symbol = .ok false := by
  rcases expected_eq_ok h with ⟨haccepted, rfl⟩ |
    ⟨hrunning, top, listed, htop, hlisted, htried, taken, htaken, rfl⟩
  · have hstep : step t (withToken s.configuration ⟨symbol, 0⟩) = .ok (.stalled .afterAcceptance) :=
      step_withToken_of_accepted haccepted
    exact wouldAccept_of_stalled hstep
  · by_cases hthere : symbol ∈ listed
    · obtain ⟨b, hb⟩ := htried symbol hthere
      have hrejected : b = false := by
        refine Bool.eq_false_iff.2 ?_
        rintro rfl
        exact hmem (mem_ascending.2 (((filterM_eq_ok htaken).2 symbol).2 ⟨hthere, hb⟩))
      rw [← hrejected]
      exact wouldAccept_mono (Nat.le_succ moves) hb
    · obtain ⟨stall, hends⟩ := hs.ends
      obtain ⟨why, hstep⟩ : ∃ why,
          step t (withToken s.configuration ⟨symbol, 0⟩) = .ok (.stalled why) :=
        exists_stalled_withToken ht hends hs.depth hrunning htop hlisted hthere
      exact wouldAccept_of_stalled hstep

/-- **What a session expects is what it takes.** -/
theorem suggests_of_expected (ht : t.Misses) (hs : Settled t s.configuration)
    (h : s.expected t moves = .ok symbols) : s.Suggests t symbols where
  ascending := by
    rcases expected_eq_ok h with ⟨-, rfl⟩ | ⟨-, top, listed, -, -, -, taken, -, rfl⟩
    · exact List.Pairwise.nil
    · exact pairwise_ascending taken
  mem_iff symbol token := by
    constructor
    · intro hmem
      rcases expected_eq_ok h with ⟨-, rfl⟩ | ⟨-, top, listed, -, -, -, taken, htaken, rfl⟩
      · exact absurd hmem List.not_mem_nil
      · obtain ⟨-, hwould⟩ := ((filterM_eq_ok htaken).2 symbol).1 (mem_ascending.1 hmem)
        exact ⟨moves, exists_consume_of_wouldAccept hwould token⟩
    · rintro ⟨enough, after, hconsume⟩
      exact mem_expected ht.lists hs hconsume h
  rejects symbol token hmem :=
    ⟨moves + 1, consume_of_not_wouldAccept (wouldAccept_of_not_mem ht hs h hmem)
      (expected_mono (Nat.le_succ moves) h) token⟩

/-! ## The suggestions of a session -/

/-- The suggestions that sessions make are exact: what is expected of a session that
operations lead to, and what its rejections name. -/
structure SuggestionsExact (t : ParseTable Node Level) : Prop where
  expected : ∀ {reached moves s symbols}, Reachable t reached s →
    s.expected t moves = .ok symbols → s.Suggests t symbols
  rejection : ∀ {reached moves s symbol token after rejection}, Reachable t reached s →
    s.consume t moves symbol token = .ok (after, .error rejection) →
      after = s ∧ rejection.symbol = symbol ∧ rejection.token = token ∧
        s.Suggests t rejection.expected

theorem suggestionsExact_of_misses (ht : t.Misses) : SuggestionsExact t where
  expected hreached h := suggests_of_expected ht (settled_of_reachable hreached) h
  rejection hreached h := by
    obtain ⟨rfl, -, symbols, hexpected, rfl⟩ := eq_of_consume_eq_error h
    exact ⟨rfl, rfl, rfl, suggests_of_expected ht (settled_of_reachable hreached) hexpected⟩

/-- **Suggestions are exact**, over every compiled grammar and over every array of words
that the scan accepts. -/
theorem suggestions_exact : (∀ p : Parser, SuggestionsExact p.table) ∧
    ∀ t : Table, SuggestionsExact t.table :=
  ⟨fun p => suggestionsExact_of_misses p.misses, fun t => suggestionsExact_of_misses t.misses⟩

/-- A table of one node that shifts two terminals, stored in the wrong order. -/
def unsorted : Table := ⟨#[1, 2, 1, 0, 0, 1, 2, 4, 1, 2, 0, 1, 2], ⟨1, 2⟩, by rfl⟩

/-- Halving misses the terminal with the greater code, and so it is not suggested. -/
theorem suggestions_exact_unsorted : unsorted.symbols 6 = .ok [.terminal 1, .terminal 0] ∧
    ∃ s, start unsorted.table 9 = .ok s ∧ s.Suggests unsorted.table [.terminal 0] := by
  have hexpected : (start unsorted.table 9 >>= expected unsorted.table 9) =
      .ok [.terminal 0] := by rfl
  obtain ⟨s, hstart, hs⟩ := bind_eq_ok.1 hexpected
  exact ⟨by rfl, s, hstart, (suggestions_exact.2 unsorted).expected (.start hstart) hs⟩

end Session

end BoundedLR
