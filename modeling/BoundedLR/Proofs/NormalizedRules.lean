import BoundedLR.Proofs.NormalForm

/-!
# Rules and what becomes of them

Normalising splits a rule twice.  First its markers are attached to the symbols that they
stand behind; then every symbol becomes a slot, with the productions that its markers or
the priorities leave.  This module describes both steps without the functions that carry
them out.

* A marked body is the body of the rule, cut into symbols with the markers behind them
  (`Rule.markedBody_eq_ok`).  Such a cutting is found for every body in which no symbol is
  synthetic and every marker stands on a non-terminal.
* What stands at a place of a body is what the cutting has there (`getElem?_of_places`,
  `exists_places`), and what is true of all markers can be asked of the body or of its
  pieces (`markersIn_flatMap`).
* The level of an operator is one that lists it, provided no operator is in two of them
  (`priorityClash?_eq_none_iff`).
* A slot accepts what its markers admit, or what the priorities do not refuse
  (`accepts_ascending_admitted_iff`, `accepts_operandFilter_iff`).
-/

namespace BoundedLR

/-! ## Symbols and markers of a body -/

/-- The symbol that an element of a body is, unless it is a marker. -/
def BodyElement.symbol? : BodyElement → Option Symbol
  | symbol s => some s
  | marker _ => none

/-- The symbols of a body, without the markers. -/
def symbolsOf (body : List BodyElement) : List Symbol := body.filterMap (·.symbol?)

/-- The symbols of a rule. -/
def Rule.symbols (r : Rule) : List Symbol := symbolsOf r.body

/-- At place `e` of the body of a rule, markers not counted, there is the given symbol with
the given markers behind it. -/
def Rule.Places (r : Rule) (e : Nat) (s : Symbol) (markers : List Marker) : Prop :=
  ∃ before after, r.body = before ++ .symbol s :: (markers.map .marker ++ after) ∧
    (symbolsOf before).length = e ∧ ∀ k, after.head? ≠ some (.marker k)

@[simp] theorem symbolsOf_nil : symbolsOf [] = [] := rfl

@[simp] theorem symbolsOf_symbol (s : Symbol) (rest : List BodyElement) :
    symbolsOf (.symbol s :: rest) = s :: symbolsOf rest := rfl

@[simp] theorem symbolsOf_marker (k : Marker) (rest : List BodyElement) :
    symbolsOf (.marker k :: rest) = symbolsOf rest := rfl

@[simp] theorem symbolsOf_append (xs ys : List BodyElement) :
    symbolsOf (xs ++ ys) = symbolsOf xs ++ symbolsOf ys := List.filterMap_append

@[simp] theorem symbolsOf_markers (markers : List Marker) :
    symbolsOf (markers.map .marker) = [] := by
  induction markers with
  | nil => rfl
  | cons k rest ih => exact ih

/-- Every marker of a body that is read on from another one has the property in question,
together with the symbol that it stands on: the last one before it. -/
def MarkersIn (P : Symbol → Marker → Prop) (seen body : List BodyElement) : Prop :=
  ∀ before k after, body = before ++ .marker k :: after →
    ∃ s, (symbolsOf (seen ++ before)).getLast? = some s ∧ P s k

section MarkersIn

variable {P : Symbol → Marker → Prop} {seen body rest : List BodyElement} {s : Symbol} {k : Marker}

@[simp] theorem markersIn_nil : MarkersIn P seen [] := by
  intro before k after h
  cases before <;> cases h

theorem markersIn_cons {x : BodyElement} : MarkersIn P seen (x :: rest) ↔
    (∀ k, x = .marker k → ∃ s, (symbolsOf seen).getLast? = some s ∧ P s k) ∧
      MarkersIn P (seen ++ [x]) rest := by
  constructor
  · refine fun h => ⟨fun k hk => ?_, fun before k after hrest => ?_⟩
    · have hmarker := h [] k rest (by rw [hk]; rfl)
      rwa [List.append_nil] at hmarker
    · have hmarker := h (x :: before) k after (by rw [hrest]; rfl)
      rwa [List.append_cons] at hmarker
  · rintro ⟨hx, hrest⟩ before k after h
    cases before with
    | nil =>
        obtain ⟨rfl, rfl⟩ := List.cons.inj h
        rw [List.append_nil]
        exact hx k rfl
    | cons y before =>
        obtain ⟨rfl, rfl⟩ := List.cons.inj h
        rw [List.append_cons]
        exact hrest before k after rfl

theorem markersIn_symbol :
    MarkersIn P seen (.symbol s :: rest) ↔ MarkersIn P (seen ++ [.symbol s]) rest := by
  rw [markersIn_cons, and_iff_right]
  exact fun k hk => nomatch hk

theorem markersIn_marker (hseen : (symbolsOf seen).getLast? = some s) :
    MarkersIn P seen (.marker k :: rest) ↔ P s k ∧ MarkersIn P (seen ++ [.marker k]) rest := by
  simp [markersIn_cons, hseen]

theorem markersIn_markers_append {markers : List Marker}
    (hseen : (symbolsOf seen).getLast? = some s) :
    MarkersIn P seen (markers.map .marker ++ rest) ↔
      (∀ k ∈ markers, P s k) ∧ MarkersIn P (seen ++ markers.map .marker) rest := by
  induction markers generalizing seen with
  | nil => simp
  | cons k markers ih =>
      rw [List.map_cons, List.cons_append, markersIn_marker hseen, ih (by simpa using hseen),
        List.forall_mem_cons, and_assoc, List.append_assoc, List.singleton_append]

end MarkersIn

/-! ## Bodies cut into marked symbols -/

namespace MarkedSymbol

/-- What a marked symbol stands for: the symbol, and its markers behind it. -/
def elements (m : MarkedSymbol) : List BodyElement := .symbol m.symbol :: m.markers.map .marker

/-- One more marker. -/
theorem elements_concat (s : Symbol) (markers : List Marker) (k : Marker) :
    (⟨s, markers ++ [k]⟩ : MarkedSymbol).elements =
      (⟨s, markers⟩ : MarkedSymbol).elements ++ [.marker k] := by
  simp [elements]

@[simp] theorem symbolsOf_elements (m : MarkedSymbol) : symbolsOf m.elements = [m.symbol] := by
  rw [elements, symbolsOf_symbol, symbolsOf_markers]

@[simp] theorem symbolsOf_flatMap (body : List MarkedSymbol) :
    symbolsOf (body.flatMap elements) = body.map (·.symbol) := by
  induction body with
  | nil => rfl
  | cons m rest ih => simp [ih]

/-- The pieces of a body begin with symbols. -/
theorem head?_flatMap_ne (body : List MarkedSymbol) (k : Marker) :
    (body.flatMap elements).head? ≠ some (.marker k) := by
  cases body with
  | nil => exact fun h => nomatch h
  | cons m rest => exact fun h => nomatch h

/-- What is true of all markers of a body is true of the markers of its pieces. -/
theorem markersIn_flatMap {P : Symbol → Marker → Prop} {seen : List BodyElement}
    {body : List MarkedSymbol} : MarkersIn P seen (body.flatMap elements) ↔
      ∀ m ∈ body, ∀ k ∈ m.markers, P m.symbol k := by
  induction body generalizing seen with
  | nil => simp
  | cons m rest ih =>
      rw [List.flatMap_cons, elements, List.cons_append, markersIn_symbol,
        markersIn_markers_append (s := m.symbol) (by simp), ih, List.forall_mem_cons]

end MarkedSymbol

namespace Rule

variable {r : Rule} {done out : List MarkedSymbol} {body : List BodyElement}
  {marked : List MarkedSymbol} {e : Nat} {s : Symbol} {markers : List Marker}

/-- Attaching markers cuts the body into pieces. -/
theorem flatMap_of_attachMarkers (h : attachMarkers done body = .ok out) :
    out.flatMap (·.elements) = done.reverse.flatMap (·.elements) ++ body := by
  induction done, body using attachMarkers.induct with
  | case1 done =>
      rw [attachMarkers, Except.ok.injEq] at h
      rw [← h, List.append_nil]
  | case2 done s rest hs =>
      rw [attachMarkers, if_pos hs] at h
      cases h
  | case3 done s rest hs ih =>
      rw [attachMarkers, if_neg hs] at h
      rw [ih h]
      simp [MarkedSymbol.elements]
  | case4 s markers done k rest hs ih =>
      rw [attachMarkers, if_pos hs] at h
      rw [ih h]
      simp [MarkedSymbol.elements_concat]
  | case5 s markers done k rest hs =>
      rw [attachMarkers, if_neg hs] at h
      cases h
  | case6 k rest => cases h

/-- Markers can be attached if no symbol is synthetic and every marker stands on a
non-terminal. -/
theorem exists_attachMarkers_iff : (∃ out, attachMarkers done body = .ok out) ↔
    (∀ s, .symbol s ∈ body → s.isReserved = false) ∧
      MarkersIn (fun s _ => s.kind = .nonTerminal) (done.reverse.flatMap (·.elements)) body := by
  induction done, body using attachMarkers.induct with
  | case1 done => simp [attachMarkers]
  | case2 done s rest hs => simp [attachMarkers, hs]
  | case3 done s rest hs ih =>
      rw [attachMarkers, if_neg hs, ih, markersIn_symbol]
      simp [MarkedSymbol.elements, hs]
  | case4 s markers done k rest hs ih =>
      rw [attachMarkers, if_pos hs, ih, markersIn_marker (s := s) (by simp)]
      simp [MarkedSymbol.elements_concat, hs]
  | case5 s markers done k rest hs =>
      rw [attachMarkers, if_neg hs, markersIn_marker (s := s) (by simp)]
      simp [hs]
  | case6 k rest => simp [attachMarkers, markersIn_cons]

/-- The body of a rule can be cut if its head is a non-terminal, no symbol is synthetic and
every marker stands on a non-terminal. -/
theorem exists_markedBody_iff : (∃ marked, r.markedBody = .ok marked) ↔
    r.head.kind = .nonTerminal ∧ (∀ s, .symbol s ∈ r.body → s.isReserved = false) ∧
      MarkersIn (fun s _ => s.kind = .nonTerminal) [] r.body := by
  have hattach : (∃ marked, attachMarkers [] r.body = .ok marked) ↔ _ := exists_attachMarkers_iff
  rw [markedBody]
  cases hk : r.head.kind with
  | nonTerminal => simpa using hattach
  | terminal => simp
  | start => simp
  | endOfInput => simp

/-- The pieces that a body has been cut into. -/
theorem flatMap_of_markedBody (h : r.markedBody = .ok marked) :
    marked.flatMap (·.elements) = r.body := by
  unfold markedBody at h
  split at h
  · cases h
  · cases h
  · cases h
  · exact flatMap_of_attachMarkers h

theorem symbols_of_markedBody (h : r.markedBody = .ok marked) :
    r.symbols = marked.map (·.symbol) := by
  rw [symbols, ← flatMap_of_markedBody h, MarkedSymbol.symbolsOf_flatMap]

/-- Every piece stands at its place. -/
theorem places_of_getElem? {m : MarkedSymbol} (h : r.markedBody = .ok marked)
    (hm : marked[e]? = some m) : r.Places e m.symbol m.markers := by
  obtain ⟨he, rfl⟩ := List.getElem?_eq_some_iff.1 hm
  refine ⟨(marked.take e).flatMap (·.elements), (marked.drop (e + 1)).flatMap (·.elements), ?_, ?_,
    fun k => MarkedSymbol.head?_flatMap_ne _ k⟩
  · have hsplit : marked = marked.take e ++ marked[e] :: marked.drop (e + 1) := by
      rw [← List.drop_eq_getElem_cons he, List.take_append_drop]
    calc r.body
      _ = marked.flatMap (·.elements) := (flatMap_of_markedBody h).symm
      _ = (marked.take e ++ marked[e] :: marked.drop (e + 1)).flatMap (·.elements) :=
          congrArg _ hsplit
      _ = _ := by rw [List.flatMap_append, List.flatMap_cons]; rfl
  · simp [Nat.le_of_lt he]

/-- What follows markers is not reached inside them. -/
theorem exists_of_markers_append {xs before tail : List BodyElement}
    (h : markers.map .marker ++ xs = before ++ .symbol s :: tail) :
    ∃ before', before = markers.map .marker ++ before' ∧ xs = before' ++ .symbol s :: tail := by
  rcases List.append_eq_append_iff.1 h with ⟨before', rfl, hxs⟩ | ⟨inner, hmarkers, hxs⟩
  · exact ⟨before', rfl, hxs⟩
  · cases inner with
    | nil => exact ⟨[], by rw [hmarkers, List.append_nil, List.append_nil], hxs.symm⟩
    | cons x inner =>
        obtain ⟨rfl, -⟩ := List.cons.inj hxs
        have hmem : BodyElement.symbol s ∈ markers.map .marker := hmarkers ▸ by simp
        obtain ⟨k, -, hk⟩ := List.mem_map.1 hmem
        cases hk

/-- Markers are read up to what is no marker. -/
theorem markers_inj {ms ns : List Marker} {xs ys : List BodyElement}
    (h : ms.map .marker ++ xs = ns.map .marker ++ ys) (hx : ∀ k, xs.head? ≠ some (.marker k))
    (hy : ∀ k, ys.head? ≠ some (.marker k)) : ms = ns := by
  induction ms generalizing ns with
  | nil =>
      cases ns with
      | nil => rfl
      | cons k ns => exact absurd (congrArg List.head? h) (hx k)
  | cons k ms ih =>
      cases ns with
      | nil => exact absurd (congrArg List.head? h.symm) (hy k)
      | cons l ns =>
          obtain ⟨hkl, hrest⟩ := List.cons.inj h
          cases hkl
          rw [ih hrest]

/-- **At each place stands the piece with its number**, and nothing else. -/
theorem getElem?_of_places (h : r.markedBody = .ok marked) (hplaces : r.Places e s markers) :
    marked[e]? = some ⟨s, markers⟩ := by
  obtain ⟨before, after, hbody, rfl, hafter⟩ := hplaces
  rw [← flatMap_of_markedBody h] at hbody
  clear h
  induction marked generalizing before with
  | nil => cases before <;> cases hbody
  | cons m rest ih =>
      rw [List.flatMap_cons, MarkedSymbol.elements, List.cons_append] at hbody
      cases before with
      | nil =>
          obtain ⟨hsymbol, hrest⟩ := List.cons.inj hbody
          have hmarkers := markers_inj hrest (MarkedSymbol.head?_flatMap_ne rest) hafter
          cases hsymbol
          cases hmarkers
          rfl
      | cons x before =>
          obtain ⟨rfl, hrest⟩ := List.cons.inj hbody
          obtain ⟨front, rfl, hpieces⟩ := exists_of_markers_append hrest
          simpa using ih front hpieces

end Rule

/-! ## Levels -/

/-- A symbol is declared in a level. -/
def Declared (priorities : List PriorityLevel) (s : Symbol) (level : Nat) : Prop :=
  ∃ p, priorities[level]? = some p ∧ s ∈ p.symbols

section Levels

variable {priorities : List PriorityLevel} {o : Symbol}

/-- The level of an operator is one that lists it. -/
theorem exists_of_levelOf {m : Nat} (h : levelOf priorities o = some m) :
    ∃ p, priorities[m]? = some p ∧ o ∈ p.symbols := by
  obtain ⟨hm, hp, -⟩ := List.findIdx?_eq_some_iff_getElem.1 h
  exact ⟨priorities[m], List.getElem?_eq_getElem hm, by simpa using hp⟩

/-- An operator has a level exactly if some level lists it. -/
theorem isSome_levelOf_iff :
    (levelOf priorities o).isSome ↔ ∃ p ∈ priorities, o ∈ p.symbols := by
  simp [levelOf, List.findIdx?_isSome]

/-- **The levels clash exactly if some operator is declared in two of them.** -/
theorem priorityClash?_eq_none_iff : priorityClash? priorities = none ↔
    ∀ s m n, Declared priorities s m → Declared priorities s n → m = n := by
  have hclash : priorityClash? priorities = none ↔
      ∀ s m, Declared priorities s m → levelOf priorities s = some m := by
    simp only [priorityClash?, List.findSome?_eq_none_iff, Prod.forall,
      List.mem_zipIdx_iff_getElem?]
    constructor
    · rintro h s m ⟨p, hp, hs⟩
      have hfirst := h p m hp s hs
      obtain ⟨n, hn⟩ := Option.isSome_iff_exists.1
        (isSome_levelOf_iff.2 ⟨p, List.mem_of_getElem? hp, hs⟩)
      rw [hn] at hfirst ⊢
      dsimp only at hfirst
      by_cases hnm : n = m
      · rw [hnm]
      · rw [if_neg hnm] at hfirst
        cases hfirst
    · intro h p m hp s hs
      rw [h s m ⟨p, hp, hs⟩]
      exact if_pos rfl
  rw [hclash]
  constructor
  · exact fun h s m n hm hn => Option.some.inj ((h s m hm).symm.trans (h s n hn))
  · rintro h s m ⟨p, hp, hs⟩
    obtain ⟨n, hn⟩ := Option.isSome_iff_exists.1
      (isSome_levelOf_iff.2 ⟨p, List.mem_of_getElem? hp, hs⟩)
    rw [hn, h s n m (exists_of_levelOf hn) ⟨p, hp, hs⟩]

/-- Without a clash the level of an operator is the one that it is declared in. -/
theorem levelOf_eq_some_iff (h : priorityClash? priorities = none) {m : Nat} :
    levelOf priorities o = some m ↔ Declared priorities o m := by
  refine ⟨exists_of_levelOf, fun hm => ?_⟩
  obtain ⟨n, hn⟩ := Option.isSome_iff_exists.1
    (isSome_levelOf_iff.2 ⟨_, List.mem_of_getElem? hm.choose_spec.1, hm.choose_spec.2⟩)
  rw [hn, priorityClash?_eq_none_iff.1 h o n m (exists_of_levelOf hn) hm]

end Levels

/-! ## What a slot accepts -/

theorem productionOfRule_mem_productionsWhere {rules : List MarkedRule} {j : Nat}
    {other : MarkedRule} (h : rules[j]? = some other) (p : MarkedRule → Bool) :
    productionOfRule j ∈ productionsWhere rules p ↔ p other = true := by
  simp only [productionsWhere, List.mem_map, List.mem_filter, Prod.exists,
    List.mem_zipIdx_iff_getElem?]
  constructor
  · rintro ⟨r, i, ⟨hr, hp⟩, hi⟩
    obtain rfl : i = j := Nat.succ.inj hi
    obtain rfl : r = other := Option.some.inj (hr.symm.trans h)
    exact hp
  · exact fun hp => ⟨other, j, ⟨h, hp⟩, rfl⟩

/-- **A slot without markers accepts the rules that the priorities do not refuse there.**
This holds whether or not a list was written down. -/
theorem accepts_operandFilter_iff {rules : List MarkedRule} {priorities : List PriorityLevel}
    {r other : MarkedRule} {j : Nat} (h : rules[j]? = some other) (hhead : other.head = r.head)
    (s : Symbol) (place : Nat) :
    (Slot.mk s (operandFilter rules priorities r place)).accepts (productionOfRule j) = true ↔
      ∀ m ∈ r.level? priorities, ∀ p ∈ priorities[m]?,
        refuses priorities m p.associativity (r.hasLeftOperand && place == 0)
          (r.hasRightOperand && place + 1 == r.body.length) other = false := by
  unfold operandFilter
  cases r.level? priorities with
  | none => simp [Slot.accepts]
  | some m =>
      cases hp : priorities[m]? with
      | none => simp [Slot.accepts, hp]
      | some p =>
          simp only [Option.mem_some_iff, forall_eq', hp]
          split
          · rename_i hany
            rw [Slot.accepts, List.contains_iff_mem, productionOfRule_mem_productionsWhere h]
            simp [hhead]
          · rename_i hany
            rw [Slot.accepts, Bool.eq_false_iff]
            refine iff_of_true rfl fun hrefused => hany ?_
            exact List.any_eq_true.2 ⟨other, List.mem_of_getElem? h, by simp [hhead, hrefused]⟩

/-- Nothing is refused at a place whose symbol is not the head. -/
theorem operandFilter_eq_none {rules : List MarkedRule} {priorities : List PriorityLevel}
    {r : MarkedRule} {place : Nat} (h : r.body[place]?.map (·.symbol) ≠ some r.head) :
    operandFilter rules priorities r place = none := by
  have hleft : (r.hasLeftOperand && place == 0) = false := by
    refine Bool.eq_false_iff.2 fun hleft => h ?_
    simp only [MarkedRule.hasLeftOperand, Bool.and_eq_true, beq_iff_eq] at hleft
    rw [hleft.2, ← List.head?_eq_getElem?]
    exact hleft.1.2
  have hright : (r.hasRightOperand && place + 1 == r.body.length) = false := by
    refine Bool.eq_false_iff.2 fun hright => h ?_
    simp only [MarkedRule.hasRightOperand, Bool.and_eq_true, beq_iff_eq] at hright
    rw [Nat.eq_sub_of_add_eq hright.2, ← List.getLast?_eq_getElem?]
    exact hright.1.2
  have hrefuses : ∀ level side other, refuses priorities level side false false other = false := by
    intro level side other
    unfold refuses
    split <;> rfl
  unfold operandFilter
  split
  · rfl
  · split
    · rfl
    · simp [hleft, hright, hrefuses]

/-- Whether a marker of rule `i` admits rule `j`, which carries the given mask. -/
def Marker.Admits (i j : Nat) (mask : UInt64) : Marker → Prop
  | itself => j = i
  | .mask m => mask = m

section Slots

variable {rules : List MarkedRule} {priorities : List PriorityLevel} {r other : MarkedRule}
  {i j place : Nat} {k : Marker} {m : MarkedSymbol} {slot : Slot} {production : Production}
  {head s : Symbol}

/-- A marker admits some rule exactly if it stands on the head or its mask occurs. -/
theorem admitted_ne_nil_iff : k.admitted rules head i s ≠ [] ↔
    match k with
    | .itself => s = head
    | .mask mask => ∃ other ∈ rules, other.head = s ∧ other.mask = mask := by
  cases k with
  | itself => simp [Marker.admitted]
  | mask mask =>
      simp only [Marker.admitted, productionsWhere, ne_eq, List.map_eq_nil_iff,
        List.filter_eq_nil_iff, not_forall, not_not, Bool.and_eq_true, beq_iff_eq, Prod.exists,
        List.mem_zipIdx_iff_getElem?, exists_prop]
      constructor
      · rintro ⟨other, j, hj, h⟩
        exact ⟨other, List.mem_of_getElem? hj, h⟩
      · rintro ⟨other, hother, h⟩
        obtain ⟨j, hj⟩ := List.mem_iff_getElem?.1 hother
        exact ⟨other, j, hj, h⟩

/-- A marker that admits anything at all admits the rules of its symbol that it names. -/
theorem productionOfRule_mem_admitted (h : rules[j]? = some other) (hhead : other.head = s)
    (hne : k.admitted rules head i s ≠ []) :
    productionOfRule j ∈ k.admitted rules head i s ↔ k.Admits i j other.mask := by
  cases k with
  | itself =>
      have hs : s = head := admitted_ne_nil_iff.1 hne
      rw [Marker.admitted, if_pos hs, List.mem_singleton]
      exact Nat.succ_inj
  | mask mask =>
      rw [Marker.admitted, productionOfRule_mem_productionsWhere h]
      simp [hhead, Marker.Admits]

/-- A slot can be made if every marker on it admits some rule. -/
theorem exists_slotOf_iff : (∃ slot, slotOf rules priorities r i m place = .ok slot) ↔
    ∀ k ∈ m.markers, k.admitted rules r.head i m.symbol ≠ [] := by
  unfold slotOf
  split
  · rename_i hnone
    simp [hnone]
  · dsimp only
    split
    · rename_i hany
      simp at hany
      simpa using hany
    · rename_i hany
      simp at hany
      simpa using hany

/-- **A slot with markers accepts what one of them admits, a slot without markers what the
priorities leave.** -/
theorem accepts_slotOf_iff (h : slotOf rules priorities r i m place = .ok slot)
    (hj : rules[j]? = some other) (hhead : other.head = m.symbol) :
    slot.accepts (productionOfRule j) = true ↔
      if m.markers = [] then
        (Slot.mk m.symbol (operandFilter rules priorities r place)).accepts
          (productionOfRule j) = true
      else ∃ k ∈ m.markers, k.Admits i j other.mask := by
  have hne := exists_slotOf_iff.1 ⟨slot, h⟩
  unfold slotOf at h
  split at h
  · rename_i hnone
    rw [if_pos hnone, ← Except.ok.inj h]
  · rename_i hmarkers
    rw [if_neg hmarkers]
    dsimp only at h
    split at h
    · cases h
    · rw [← Except.ok.inj h, Slot.accepts, List.contains_iff_mem, mem_ascending, List.mem_flatten]
      simp only [List.mem_map, exists_exists_and_eq_and]
      exact exists_congr fun k => and_congr_right fun hk =>
        productionOfRule_mem_admitted hj hhead (hne k hk)

/-- The production of a rule has the slots of its marked symbols. -/
theorem productionOf_eq_ok : productionOf rules priorities r i = .ok production ↔
    ∃ slots, List.Forall₂ (fun x slot => slotOf rules priorities r i x.1 x.2 = .ok slot)
      r.body.zipIdx slots ∧ production = ⟨r.head, r.mask, r.predict, slots⟩ := by
  rw [productionOf, bind_eq_ok]
  exact exists_congr fun slots => and_congr mapM_eq_ok
    ⟨fun h => (Except.ok.inj h).symm, fun h => congrArg _ h.symm⟩

/-- A production can be made if every marker of the rule admits some rule. -/
theorem exists_productionOf_iff :
    (∃ production, productionOf rules priorities r i = .ok production) ↔
    ∀ m ∈ r.body, ∀ k ∈ m.markers, k.admitted rules r.head i m.symbol ≠ [] := by
  constructor
  · rintro ⟨production, h⟩ m hm
    obtain ⟨slots, hslots, -⟩ := productionOf_eq_ok.1 h
    obtain ⟨place, hplace⟩ := List.mem_iff_getElem?.1 hm
    obtain ⟨slot, -, hslot⟩ := forall₂_getElem?_left hslots (n := place) (x := (m, place))
      (by simp [List.getElem?_zipIdx, hplace])
    exact exists_slotOf_iff.1 ⟨slot, hslot⟩
  · intro h
    obtain ⟨slots, hslots⟩ : ∃ slots,
        (r.body.zipIdx.mapM fun x => slotOf rules priorities r i x.1 x.2) = .ok slots :=
      exists_mapM_eq_ok fun x hx => exists_slotOf_iff.2 (h x.1 (List.fst_mem_of_mem_zipIdx hx))
    exact ⟨_, productionOf_eq_ok.2 ⟨slots, mapM_eq_ok.1 hslots, rfl⟩⟩

end Slots

end BoundedLR
