import BoundedLR.Proofs.EndOfInput

/-!
# How many moves a run takes

A run that has recorded trees comes to an end, but how soon depends on the grammar: with
empty productions and chains of renamings a token may cause any number of reductions.  The
record shows how many there have been, since every reduction leaves a step there.  So if a
record never holds more than a given number of steps for each token (`Parser.Terse`), and
if one symbol of lookahead is enough, then the number of moves is bounded:

* a shift takes a token from the buffer,
* a reduction adds a step to the record,
* the acceptance of the input is the last move,
* and the cursor stays at the root of a trie, since there is only one level.

Behind `n` tokens one more can be tried out, and taken, with little more than `rate * (n + 1)`
moves (`Compiled.exists_consume`).
-/

namespace BoundedLR

open Machine Session

variable {p : Parser} {start : Symbol} {rate limit moves : Nat} {taken : List Token}
  {trees : List (Tree Nat)} {c c' : Configuration (Record Nat) (Trie Decision)}

namespace Parser

/-- The records of a parser hold no more than a given number of steps for each token that
has been taken. -/
def Terse (p : Parser) (rate : Nat) : Prop :=
  ∀ {taken c trees}, p.Growth taken c trees → c.stack.steps.length ≤ rate * taken.length

/-- How many moves can be left, if the record may hold a given number of steps. -/
def movesLeft (limit : Nat) (c : Configuration (Record Nat) (Trie Decision)) : Nat :=
  (limit - c.stack.steps.length) + c.buffer.length + if c.stack.accepted then 0 else 1

namespace Compiled

variable (hp : p.Compiled start)

include hp

/-! ## One move -/

/-- With one symbol of lookahead the cursor stays at the root. -/
theorem depth_eq_zero (hbound : p.bound = 1) (hs : p.Growth taken c trees) :
    c.cursor.depth = 0 := by
  obtain ⟨top, -, -, htop⟩ := hs.exists_top
  obtain ⟨root, hroot, hwalk⟩ := hs.cursor top htop
  have hle := hp.length_le_of_walk hroot hwalk
  rw [List.length_map, List.length_take, Nat.min_eq_left hs.depth_le, hbound] at hle
  exact Nat.le_zero.1 hle

/-- **Every move leaves fewer moves.** -/
theorem movesLeft_lt (hbound : p.bound = 1) (hs : p.Growth taken c trees)
    (h : Machine.step p.table c = .ok (.moved c')) (hlimit : c'.stack.steps.length ≤ limit) :
    movesLeft limit c' < movesLeft limit c := by
  obtain ⟨trees', hs'⟩ := hp.growth_step hs h
  obtain ⟨hna, top, action, htop, -, hmoves⟩ := step_eq_moved.1 h
  have hrunning : c.stack.accepted = false := hna
  cases hmoves with
  | descend =>
      have hzero := hp.depth_eq_zero hbound hs'
      exact absurd hzero (Nat.succ_ne_zero _)
  | @shift target predict token rest root hb hroot =>
      have hsteps :
          c.stack.steps.length ≤ (c.stack.shift token ⟨target, predict⟩).steps.length := by
        rw [Record.shift]
        dsimp only
        split
        · exact Nat.le_refl _
        · rw [List.length_append]
          exact Nat.le_add_right _ _
      have hacc : (c.stack.shift token ⟨target, predict⟩).accepted = false := hrunning
      change (limit - (c.stack.shift token ⟨target, predict⟩).steps.length) + rest.length +
        (if (c.stack.shift token ⟨target, predict⟩).accepted then 0 else 1) < _
      rw [movesLeft, hb, hacc, hrunning, List.length_cons]
      omega
  | accept =>
      change (limit - c.stack.steps.length) + c.buffer.length + 0 < _
      rw [movesLeft, hrunning]
      exact Nat.lt_succ_self _
  | @reduce index property last landing root hproperty hacc hlast hlanding hroot =>
      have hsteps : c.stack.steps.length < (c.stack.reduce property landing).steps.length := by
        rw [Record.reduce]
        dsimp only
        rw [List.length_append, List.length_singleton]
        split
        · exact Nat.lt_succ_of_le (List.length_le_length_insertIdx ..)
        · exact Nat.lt_succ_self _
      have hacc' : (c.stack.reduce property landing).accepted = false := hrunning
      have hlimit' : (c.stack.reduce property landing).steps.length ≤ limit := hlimit
      change (limit - (c.stack.reduce property landing).steps.length) + c.buffer.length +
        (if (c.stack.reduce property landing).accepted then 0 else 1) < _
      rw [movesLeft, hacc', hrunning]
      omega

/-! ## Runs -/

/-- **A run takes no more moves than are left.** -/
theorem exists_run (hbound : p.bound = 1) (hterse : p.Terse rate)
    (hs : p.Growth taken c trees) (hmoves : movesLeft (rate * taken.length) c < moves) :
    ∃ r, Machine.run p.table moves c = .ok r := by
  induction moves generalizing c trees with
  | zero => exact absurd hmoves (Nat.not_lt_zero _)
  | succ moves ih =>
      obtain ⟨r, hr⟩ := hp.exists_step hs
      cases r with
      | moved next =>
          obtain ⟨trees', hs'⟩ := hp.growth_step hs hr
          have hlt := hp.movesLeft_lt hbound hs hr (hterse hs')
          rw [run_of_moved hr]
          exact ih hs' (by omega)
      | waiting => exact ⟨_, run_of_waiting hr⟩
      | stalled why => exact ⟨_, run_of_stalled hr⟩

/-- So does a run that is in step with it, with one more token in the buffer. -/
theorem exists_run_withToken {σ : Type} [StateStack σ Nat] [LawfulStack σ Nat]
    {d : Configuration σ (Trie Decision)} (hbound : p.bound = 1) (hterse : p.Terse rate)
    (hs : p.Growth taken c trees) (hbuffer : c.buffer = []) (hstep : InStep d c)
    (hmoves : rate * (taken.length + 1) + 2 < moves) (token : Token) :
    ∃ r, Machine.run p.table moves (withToken d token) = .ok r := by
  have hleft : movesLeft (rate * (taken ++ [token]).length) (withToken c token) < moves := by
    have hlength : (withToken c token).buffer.length = 1 := by
      rw [withToken, hbuffer]
      rfl
    rw [movesLeft, hlength, List.length_append, List.length_singleton]
    split <;> omega
  obtain ⟨r, hr⟩ := hp.exists_run hbound hterse (hs.withToken token) hleft
  have hnext : InStep (withToken d token) (withToken c token) := inStep_withToken hstep rfl
  obtain ⟨r', hr', -⟩ := (run_together (t := p.table) (K := fun _ _ => True)
    (fun _ _ _ _ _ _ => trivial) hnext trivial moves).exists_of_ok hr
  exact ⟨r', hr'⟩

/-! ## Sessions -/

variable {s : Session Nat (Trie Decision)} (hbound : p.bound = 1) (hterse : p.Terse rate)
  (hs : p.Growth taken s.configuration trees) (hbuffer : s.configuration.buffer = [])
  (hmoves : rate * (taken.length + 1) + 2 < moves)

include hbound hterse hs hbuffer hmoves

theorem exists_wouldAccept (symbol : Symbol) :
    ∃ b, s.wouldAccept p.table moves symbol = .ok b := by
  obtain ⟨r, hr⟩ := hp.exists_run_withToken hbound hterse hs hbuffer (inStep_dryRun _) hmoves
    ⟨symbol, s.next⟩
  exact ⟨r.2.isNone, bind_eq_ok.2 ⟨r, hr, rfl⟩⟩

theorem exists_expected : ∃ symbols, s.expected p.table moves = .ok symbols := by
  rw [Session.expected]
  cases s.accepted with
  | true => exact ⟨[], rfl⟩
  | false =>
      obtain ⟨top, -, -, htop⟩ := hs.exists_top
      rw [if_neg Bool.false_ne_true, htop]
      cases hfilter : (s.configuration.cursor.level.symbols).filterM
          (s.wouldAccept p.table moves) with
      | ok symbols =>
          exact ⟨_, bind_eq_ok.2 ⟨_, rfl, bind_eq_ok.2 ⟨_, rfl, bind_eq_ok.2 ⟨_, hfilter, rfl⟩⟩⟩⟩
      | error e =>
          obtain ⟨symbol, -, herror⟩ := exists_of_filterM_eq_error hfilter
          obtain ⟨b, hb⟩ := hp.exists_wouldAccept hbound hterse hs hbuffer hmoves symbol
          cases hb.symm.trans herror

/-- **Taking one more token returns.** -/
theorem exists_consume (symbol : Symbol) (token : Nat) :
    ∃ r, s.consume p.table moves symbol token = .ok r := by
  obtain ⟨b, hb⟩ := hp.exists_wouldAccept hbound hterse hs hbuffer hmoves symbol
  cases b with
  | false =>
      obtain ⟨symbols, hsymbols⟩ := hp.exists_expected hbound hterse hs hbuffer hmoves
      exact ⟨_, bind_eq_ok.2 ⟨false, hb, bind_eq_ok.2 ⟨symbols, hsymbols, rfl⟩⟩⟩
  | true =>
      have hsame : InStep s.configuration s.configuration := ⟨fun _ => rfl, rfl, rfl, rfl⟩
      obtain ⟨⟨d, stall⟩, hrun⟩ :=
        hp.exists_run_withToken hbound hterse hs hbuffer hsame hmoves ⟨symbol, token⟩
      cases stall with
      | none => exact ⟨_, bind_eq_ok.2 ⟨true, hb, bind_eq_ok.2 ⟨_, hrun, rfl⟩⟩⟩
      | some why => exact ⟨_, bind_eq_ok.2 ⟨true, hb, bind_eq_ok.2 ⟨_, hrun, rfl⟩⟩⟩

/-- So does taking the end of input. -/
theorem exists_endOfInput {reached : Nat} (hreached : Reachable p.table reached s) :
    ∃ r, s.endOfInput p.table moves = .ok r := by
  obtain ⟨⟨after, answer⟩, hconsume⟩ :=
    hp.exists_consume hbound hterse hs hbuffer hmoves .endOfInput s.next
  cases answer with
  | error rejection => exact ⟨_, bind_eq_ok.2 ⟨_, hconsume, rfl⟩⟩
  | ok u =>
      have hacc := (hp.acceptsAtEnd.accepted_iff hreached hconsume).2 rfl
      exact ⟨_, endOfInput_eq_ok.2 ⟨hconsume, hacc⟩⟩

end Compiled
end Parser
end BoundedLR
