import BoundedLR.Proofs.Soundness
import BoundedLR.Proofs.Streaming

/-!
# Grammars without announcements

If no rule of a grammar asks for an announcement, none is ever due, and no flag of the
compiled grammar is set.  So no entry of a record is provisional, and all that has been
recorded is settled at once: a session that hands out its steps after every token has
handed out all of them.  What has been recorded does not change later, either.
-/

namespace BoundedLR

open Machine

/-- No production asks for an announcement. -/
def Productions.Silent (g : Productions) : Prop :=
  ∀ production ∈ g.all, production.predict = false

/-- No entry of a record is provisional. -/
def Record.Quiet {Node : Type} (r : Record Node) : Prop :=
  ∀ e ∈ r.entries, e.provisional = false

/-- Then all steps are settled. -/
theorem Record.Quiet.settled_eq {Node : Type} {r : Record Node} (h : r.Quiet) :
    r.settled = r.steps.length := by
  have hnone : r.entries.reverse.find? (·.provisional) = none :=
    List.find?_eq_none.2 fun e he => by simp [h e (List.mem_reverse.1 he)]
  rw [Record.settled, hnone]

namespace Parser

variable {p : Parser} {start : Symbol} {taken : List Token} {trees : List (Tree Nat)}
  {c c' : Configuration (Record Nat) (Trie Decision)} {moves : Nat} {stall : Option Stall}

/-! ## Flags -/

namespace Compiled

end Compiled
end Parser

/-! ## Handing out everything -/

/-- **A session that hands out its steps** hands out all of them, if none is provisional. -/
theorem Session.Lags.clearSteps {Node Level : Type} {t : ParseTable Node Level}
    {marked : Node → Prop} {handed : List Step} {d s : Session Node Level}
    (h : Lags t marked handed d s) (hquiet : s.configuration.stack.Quiet) :
    handed ++ d.clearSteps.1 = s.steps ∧ Lags t marked s.steps d.clearSteps.2 s := by
  have hdrained : d.configuration.stack.Quiet := by
    rw [h.configuration.stack]
    intro e he
    obtain ⟨e', he', rfl⟩ := List.mem_map.1 he
    exact hquiet e' he'
  have hbatch : d.clearSteps.1 = d.configuration.stack.steps := by
    change d.configuration.stack.clearSteps.1 = _
    rw [Record.clearSteps_eq, hdrained.settled_eq, List.take_length]
  have hall : handed ++ d.clearSteps.1 = s.steps := by
    rw [hbatch]
    exact h.configuration.steps_eq
  refine ⟨hall, ⟨?_, h.next⟩⟩
  rw [← hall]
  exact h.configuration.clearSteps

end BoundedLR
