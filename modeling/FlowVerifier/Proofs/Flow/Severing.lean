import FlowVerifier.Proofs.Flow.Redirect

/-!
# Cutting the edges to a block

Before a block is removed, its predecessors lose their edges to it.  `Cut` is the
invariant: the lists are complete but for the block that goes, and edges to it are left
only at predecessors that are still to be looked at, and at the heir.

The heir of an exit takes over its terminator, and with it an edge to the exit if that led
to itself.
-/

namespace FlowVerifier
namespace FlowGraph

variable {g g₀ g' : FlowGraph} {id i j p : BlockId} {gone b : Block}

/-! ## The predecessors -/

/-- The predecessors of a block but for itself. -/
def others (id : BlockId) (gone : Block) : List BlockId := gone.predecessors.filter (· != id)

theorem mem_others (h : WellFormed g) (hb : g.block? id = some gone) :
    p ∈ others id gone ↔ p ≠ id ∧ id ∈ g.successors p := by
  have hedge : p ∈ g.predecessors id ↔ id ∈ g.successors p := by simpa using h.edges p id
  rw [← hedge, mem_predecessors_iff, others, List.mem_filter, bne_iff_ne, hb, and_comm]
  simp

theorem others_live (h : WellFormed g) (hb : g.block? id = some gone) :
    ∀ p ∈ others id gone, p ≠ id ∧ g.contains p = true := by
  intro p hp
  obtain ⟨hne, hedge⟩ := (mem_others h hb).1 hp
  obtain ⟨b, hbare, -⟩ := mem_successors.1 hedge
  rw [contains_eq_isSome_bare?, hbare]
  exact ⟨hne, rfl⟩

/-- The terminator that an heir takes over. -/
def heirTerminator (gone : Block) (pred : BlockId) : Terminator :=
  if gone.terminator == .jump pred then .finish else gone.terminator

/-- An heir leads to blocks that exist, and returns only from a function. -/
theorem WellFormed.heirTerminator (h : WellFormed g) (hgone : g.bare? id = some gone.bare)
    (p : BlockId) :
    SoundExit (heirTerminator gone p) gone.function ∧
      ∀ j ∈ (heirTerminator gone p).targets, g.contains j = true := by
  unfold FlowGraph.heirTerminator
  split
  · exact ⟨soundExit_finish _, by simp [Terminator.targets]⟩
  · have hexit := h.exits hgone
    exact ⟨hexit, fun j hj => (h.target_live hgone hj).2⟩

theorem mem_targets_heirTerminator (hp : p ≠ id) :
    id ∈ (heirTerminator gone p).targets ↔ id ∈ gone.terminator.targets := by
  unfold heirTerminator
  split
  · rename_i heq
    rw [Terminator.eq_jump_of_beq heq]
    simp [Terminator.targets, Ne.symm hp]
  · rfl

/-- What becomes of a predecessor. -/
theorem severed_cases {t : Terminator} {inherits : Bool}
    (h : severed id gone p b = some (t, inherits)) :
    (inherits = true ∧ t = heirTerminator gone p ∧ gone.isExit = true ∧
      b.terminator = .jump id ∧ b.function = gone.function) ∨
    (inherits = false ∧ t = .finish ∧ b.terminator = .jump id ∧
      ¬ (gone.isExit = true ∧ b.function = gone.function)) ∨
    ∃ test onTrue onFalse, inherits = false ∧ b.terminator = .branch test onTrue onFalse ∧
      t = .jump (if onTrue = id then onFalse else onTrue) := by
  unfold severed at h
  split at h
  · rename_i target ht
    split at h
    · rename_i heq
      subst heq
      split at h
      · rename_i hexit
        rw [Bool.and_eq_true, beq_iff_eq] at hexit
        cases h
        exact .inl ⟨rfl, rfl, hexit.1, ht, hexit.2⟩
      · rename_i hexit
        rw [Bool.and_eq_true, beq_iff_eq] at hexit
        cases h
        exact .inr (.inl ⟨rfl, rfl, ht, hexit⟩)
    · exact absurd h (by simp)
  · rename_i ht
    cases h
    exact .inr (.inr ⟨_, _, _, rfl, ht, rfl⟩)
  · exact absurd h (by simp)

theorem not_mem_of_severed_eq_none (h : severed id gone p b = none) :
    id ∉ b.terminator.targets := by
  intro hmem
  unfold severed at h
  split at h
  · rename_i target ht
    rw [ht, Terminator.targets, List.mem_singleton] at hmem
    rw [if_pos hmem.symm] at h
    split at h <;> exact absurd h (by simp)
  · exact absurd h (by simp)
  · rename_i hjump hbranch
    cases ht : b.terminator with
    | finish => simp [ht, Terminator.targets] at hmem
    | ret value => simp [ht, Terminator.targets] at hmem
    | jump target => exact hjump target ht
    | branch test onTrue onFalse => exact hbranch test onTrue onFalse ht

/-! ## What is cut -/

/-- A block that is left has the edges it had, or fewer, unless it is the heir. -/
structure Kept (heir : Option BlockId) (j : BlockId) (b₀ b : Block) : Prop where
  function : b.function = b₀.function
  isExit : b.isExit = b₀.isExit
  targets : heir ≠ some j → b.terminator.targets ⊆ b₀.terminator.targets

/-- The lists are complete but for the block that goes, and only blocks that are still to
be looked at, and the heir, have edges to it. -/
structure Cut (g₀ : FlowGraph) (id : BlockId) (rest : List BlockId) (heir : Option BlockId)
    (g : FlowGraph) : Prop where
  edges : Listed (· ≠ id) g
  gone : g.bare? id = g₀.bare? id
  contains : ∀ j, g.contains j = g₀.contains j
  functions : g.functions = g₀.functions
  first : g.first = g₀.first
  last : g.last = g₀.last
  exits : ∀ {j b}, g.bare? j = some b → SoundExit b.terminator b.function
  blocks : ∀ {j b}, g.bare? j = some b → ∃ b₀, g₀.bare? j = some b₀ ∧ Kept heir j b₀ b
  targets : ∀ {i b}, i ≠ id → g.bare? i = some b → id ∈ b.terminator.targets →
    i ∈ rest ∨ heir = some i

/-- At first all predecessors are still to be looked at. -/
theorem cut_detach (h : WellFormed g) (hb : g.block? id = some gone) :
    Cut g id (others id gone) none (g.detach id) := by
  have hsame := sameButLists_detach g id
  refine ⟨(listed_detach h.edges id).congr fun i => by simp, hsame.bare id, hsame.contains,
    hsame.functions, hsame.first, hsame.last, fun {j b} hj => h.exits (hsame.bare j ▸ hj),
    fun {j b} hj => ⟨b, hsame.bare j ▸ hj, rfl, rfl, fun _ => List.Subset.refl _⟩, ?_⟩
  intro i b hi hib hmem
  exact .inl ((mem_others h hb).2 ⟨hi, (h.target_live (hsame.bare i ▸ hib) hmem).1⟩)

/-- The edge of one predecessor is cut. -/
theorem Cut.withTerminator (h₀ : WellFormed g₀) {rest : List BlockId} {heir : Option BlockId}
    (h : Cut g₀ id (p :: rest) none g) (hp : p ≠ id) (hb : g.bare? p = some b) {t : Terminator}
    (hsound : SoundExit t b.function) (hlive : ∀ j ∈ t.targets, g.contains j = true)
    (hheir : id ∈ t.targets → heir = some p)
    (hkept : heir ≠ some p → t.targets ⊆ b.terminator.targets) :
    Cut g₀ id rest heir (g.withTerminator p t) := by
  -- the blocks afterwards: the predecessor with its new terminator, and the others
  have hbare : ∀ {j b'}, (g.withTerminator p t).bare? j = some b' →
      j = p ∧ b' = { b with terminator := t } ∨ j ≠ p ∧ g.bare? j = some b' := by
    intro j b' hb'
    rw [bare?_withTerminator] at hb'
    split at hb'
    · rename_i heq
      subst heq
      rw [hb, Option.map_some, Option.some.injEq] at hb'
      exact .inl ⟨rfl, hb'.symm⟩
    · rename_i hne
      exact .inr ⟨Ne.symm hne, hb'⟩
  refine ⟨(listed_withTerminator h.edges fun j hj => ?_).congr fun i => ?_, ?_, fun j => ?_, ?_, ?_,
    ?_, fun {j b'} hb' => ?_, fun {j b'} hb' => ?_, fun {i b'} hi hb' hmem => ?_⟩
  · rcases mem_successors_withTerminator hb hj with hj | ⟨f, info, hf, c, hc, rfl⟩
    · exact hlive j hj
    · rw [h.contains]
      unfold function? at hf
      rw [h.functions] at hf
      exact h₀.returnTo_live hf hc
  · exact ⟨fun hi => hi.elim (fun h => h) fun heq => heq ▸ hp, .inl⟩
  · rw [bare?_withTerminator, if_neg hp]
    exact h.gone
  · rw [contains_withTerminator, h.contains]
  · rw [functions_withTerminator, h.functions]
  · rw [first_withTerminator, h.first]
  · rw [last_withTerminator, h.last]
  · rcases hbare hb' with ⟨-, rfl⟩ | ⟨-, hb'⟩
    · exact hsound
    · exact h.exits hb'
  · rcases hbare hb' with ⟨rfl, rfl⟩ | ⟨-, hb'⟩
    · obtain ⟨b₀, hb₀, hsame⟩ := h.blocks hb
      exact ⟨b₀, hb₀, hsame.function, hsame.isExit, fun hne =>
        List.Subset.trans (hkept hne) (hsame.targets (by simp))⟩
    · obtain ⟨b₀, hb₀, hsame⟩ := h.blocks hb'
      exact ⟨b₀, hb₀, hsame.function, hsame.isExit, fun _ => hsame.targets (by simp)⟩
  · rcases hbare hb' with ⟨rfl, rfl⟩ | ⟨hne, hb'⟩
    · exact .inr (hheir hmem)
    · rcases h.targets hi hb' hmem with hrest | hnone
      · exact .inl ((List.mem_cons.1 hrest).resolve_left hne)
      · exact absurd hnone (by simp)

/-! ## One predecessor after the other -/

/-- The block takes over the terminator of the block that goes. -/
def IsHeir (id : BlockId) (gone b : Block) : Prop :=
  gone.isExit = true ∧ b.terminator = .jump id ∧ b.function = gone.function

theorem outcome_severPredecessor (hb : g.bare? p = some b) (heir : Option BlockId) :
    outcome (severPredecessor id gone heir p) g = outcome (match severed id gone p b with
      | none => pure heir
      | some (terminator, inherits) => do
        setTerminator p terminator
        return if inherits then some p else heir) g := by
  obtain ⟨b', hb', rfl⟩ := Option.map_eq_some_iff.1 hb
  unfold severPredecessor
  rw [outcome_bind, outcome_get]
  dsimp only
  rw [hb']
  rfl

theorem outcome_severPredecessor_some (hb : g.bare? p = some b) {t : Terminator}
    {inherits : Bool} (h : severed id gone p b = some (t, inherits)) (heir : Option BlockId)
    (hlive : ∀ j ∈ t.normalize.targets, g.contains j = true) :
    outcome (severPredecessor id gone heir p) g =
      (.ok (if inherits then some p else heir), g.withTerminator p t.normalize) := by
  have hp : g.contains p = true := contains_of_bare? hb
  rw [outcome_severPredecessor hb, h]
  exact outcome_bind_ok (outcome_setTerminator hp hlive)

theorem outcome_severPredecessor_sound (hb : g.bare? p = some b) {t : Terminator}
    {inherits : Bool} (h : severed id gone p b = some (t, inherits))
    (hsound : SoundExit t b.function) (hlive : ∀ j ∈ t.targets, g.contains j = true) :
    outcome (severPredecessor id gone none p) g =
      (.ok (if inherits then some p else none), g.withTerminator p t) := by
  rw [outcome_severPredecessor_some hb h none (by rwa [hsound.normalize]), hsound.normalize]

/-- What may happen to one predecessor, in any graph: nothing, or its terminator changes, or
it would have to lead to a block that does not exist. -/
theorem severPredecessor_cases (id : BlockId) (gone : Block) (heir : Option BlockId) (p : BlockId)
    (g : FlowGraph) :
    ((g.bare? p).bind (severed id gone p) = none ∧
      outcome (severPredecessor id gone heir p) g = (.ok heir, g)) ∨
    ∃ b t inherits, g.bare? p = some b ∧ severed id gone p b = some (t, inherits) ∧
      ((∀ j ∈ t.normalize.targets, g.contains j = true) ∧
          outcome (severPredecessor id gone heir p) g =
            (.ok (if inherits then some p else heir), g.withTerminator p t.normalize) ∨
        (∃ j ∈ t.normalize.targets, g.contains j = false) ∧
          ∃ label,
            outcome (severPredecessor id gone heir p) g = (.error (.unknownNode label), g)) := by
  cases hb : g.bare? p with
  | none =>
      refine .inl ⟨rfl, ?_⟩
      rw [bare?, Option.map_eq_none_iff] at hb
      unfold severPredecessor
      rw [outcome_bind_ok (outcome_get g), hb]
      rfl
  | some b =>
      cases hs : severed id gone p b with
      | none =>
          refine .inl ⟨hs, ?_⟩
          rw [outcome_severPredecessor hb, hs]
          rfl
      | some r =>
          obtain ⟨t, inherits⟩ := r
          refine .inr ⟨b, t, inherits, rfl, hs, ?_⟩
          by_cases hlive : ∀ j ∈ t.normalize.targets, g.contains j = true
          · exact .inl ⟨hlive, outcome_severPredecessor_some hb hs heir hlive⟩
          · have hbad : ¬ (g.contains p = true ∧
                ∀ j ∈ t.normalize.targets, g.contains j = true) := fun hok => hlive hok.2
            obtain ⟨label, hset⟩ := outcome_setTerminator_error hbad
            refine .inr ⟨by simpa using hlive, label, ?_⟩
            rw [outcome_severPredecessor hb, hs]
            exact outcome_bind_error hset

/-- **One predecessor.**  Its edge is cut, or it is the heir. -/
theorem Cut.severPredecessor (h₀ : WellFormed g₀) (hgone : g₀.bare? id = some gone.bare)
    {rest : List BlockId} (h : Cut g₀ id (p :: rest) none g) (hp : p ≠ id)
    (hb : g.bare? p = some b) :
    ∃ heir g', outcome (severPredecessor id gone none p) g = (.ok heir, g') ∧
      Cut g₀ id rest heir g' ∧
      (heir = none ∧ ¬ IsHeir id gone b ∨ heir = some p ∧ IsHeir id gone b ∧
        g'.bare? p = some { b with terminator := heirTerminator gone p }) := by
  cases hs : severed id gone p b with
  | none =>
      have hno := not_mem_of_severed_eq_none hs
      refine ⟨none, g, by rw [outcome_severPredecessor hb, hs]; rfl, ?_, .inl ⟨rfl, ?_⟩⟩
      · refine ⟨h.edges, h.gone, h.contains, h.functions, h.first, h.last, h.exits, h.blocks,
          fun {i b'} hi hb' hmem => ?_⟩
        rcases h.targets hi hb' hmem with hrest | hheir
        · rcases List.mem_cons.1 hrest with rfl | hrest
          · rw [hb] at hb'
            cases hb'
            exact absurd hmem hno
          · exact .inl hrest
        · exact .inr hheir
      · rintro ⟨-, hjump, -⟩
        exact hno (by simp [hjump, Terminator.targets])
  | some r =>
      obtain ⟨t, inherits⟩ := r
      rcases severed_cases hs with ⟨rfl, rfl, hexit, hjump, howner⟩ | ⟨rfl, rfl, hjump, hno⟩ |
        ⟨test, onTrue, onFalse, rfl, hbranch, rfl⟩
      · obtain ⟨hsound, hlive⟩ := h₀.heirTerminator hgone p
        rw [← howner] at hsound
        have hlive : ∀ j ∈ (heirTerminator gone p).targets, g.contains j = true :=
          fun j hj => (h.contains j).trans (hlive j hj)
        refine ⟨some p, _, outcome_severPredecessor_sound hb hs hsound hlive,
          h.withTerminator h₀ hp hb hsound hlive (fun _ => rfl) fun hne => absurd rfl hne,
          .inr ⟨rfl, ⟨hexit, hjump, howner⟩, ?_⟩⟩
        rw [bare?_withTerminator, if_pos rfl, hb]
        rfl
      · have hlive : ∀ j ∈ Terminator.finish.targets, g.contains j = true := by
          simp [Terminator.targets]
        refine ⟨none, _, outcome_severPredecessor_sound hb hs (soundExit_finish _) hlive,
          h.withTerminator h₀ hp hb (soundExit_finish _) hlive (fun hmem => ?_) fun _ => ?_,
          .inl ⟨rfl, ?_⟩⟩
        · exact absurd hmem (by simp [Terminator.targets])
        · exact List.nil_subset _
        · exact fun hheir => hno ⟨hheir.1, hheir.2.2⟩
      · have hsides : onTrue ≠ onFalse := (h.exits hb).sides hbranch
        have hside : (Terminator.jump (if onTrue = id then onFalse else onTrue)).targets ⊆
            b.terminator.targets := by
          rw [hbranch]
          split <;> simp [Terminator.targets]
        have hlive : ∀ j ∈ (Terminator.jump (if onTrue = id then onFalse else onTrue)).targets,
            g.contains j = true := by
          intro j hj
          refine h.edges.contains hp (mem_successors.2 ⟨b, hb, ?_⟩)
          rw [if_neg (by simp [hbranch, Terminator.isReturn])]
          exact hside hj
        refine ⟨none, _, outcome_severPredecessor_sound hb hs (soundExit_jump _ _) hlive,
          h.withTerminator h₀ hp hb (soundExit_jump _ _) hlive (fun hmem => ?_) fun _ => hside,
          .inl ⟨rfl, ?_⟩⟩
        · rw [Terminator.targets, List.mem_singleton] at hmem
          split at hmem
          · rename_i heq
            exact absurd (heq.trans hmem) hsides
          · rename_i hne
            exact absurd hmem.symm hne
        · rintro ⟨-, hjump, -⟩
          rw [hbranch] at hjump
          exact absurd hjump (by simp)

/-- All predecessors of a block that is no exit. -/
theorem Cut.severAll (h₀ : WellFormed g₀) (hgone : g₀.bare? id = some gone.bare)
    (hexit : gone.isExit = false) {preds : List BlockId} (h : Cut g₀ id preds none g)
    (hpreds : ∀ p ∈ preds, p ≠ id ∧ g₀.contains p = true) :
    ∃ g', outcome (preds.foldlM (FlowGraph.severPredecessor id gone) none) g = (.ok none, g') ∧
      Cut g₀ id [] none g' := by
  induction preds generalizing g with
  | nil => exact ⟨g, rfl, h⟩
  | cons p rest ih =>
      obtain ⟨hp, hlive⟩ := hpreds p (List.mem_cons_self ..)
      rw [← h.contains, contains_eq_isSome_bare?] at hlive
      obtain ⟨b, hb⟩ := Option.isSome_iff_exists.1 hlive
      obtain ⟨heir, g', hrun, hcut, ⟨rfl, -⟩ | ⟨-, hheir, -⟩⟩ := h.severPredecessor h₀ hgone hp hb
      · rw [List.foldlM_cons, outcome_bind_ok hrun]
        exact ih hcut fun p hp => hpreds p (List.mem_cons_of_mem _ hp)
      · rw [hheir.1] at hexit
        exact absurd hexit (by simp)

/-- A predecessor that becomes the heir has taken over the terminator of an exit, in any
graph. -/
theorem severPredecessor_heir {heir : Option BlockId}
    (hrun : outcome (severPredecessor id gone none p) g = (.ok heir, g')) :
    heir = none ∨ heir = some p ∧ gone.isExit = true ∧ ∃ b, g'.bare? p = some b ∧
      b.terminator.isReturn = (heirTerminator gone p).isReturn := by
  rcases severPredecessor_cases id gone none p g with
    ⟨-, hok⟩ | ⟨b, t, inherits, hb, hs, ⟨-, hok⟩ | ⟨-, label, herror⟩⟩
  · rw [hok] at hrun
    exact .inl (Except.ok.inj (congrArg Prod.fst hrun)).symm
  · rw [hok] at hrun
    obtain ⟨hheir, rfl⟩ := Prod.mk.inj hrun
    obtain rfl := Except.ok.inj hheir
    rcases severed_cases hs with ⟨rfl, rfl, hisExit, -⟩ | ⟨rfl, -⟩ | ⟨-, -, -, rfl, -⟩
    · refine .inr ⟨rfl, hisExit, _, by rw [bare?_withTerminator, if_pos rfl, hb]; rfl, ?_⟩
      exact Terminator.isReturn_normalize _
    · exact .inl rfl
    · exact .inl rfl
  · rw [herror] at hrun
    exact absurd (congrArg Prod.fst hrun) (by simp)

/-- Of an exit, the only predecessor may become the heir; of other blocks, none does. -/
theorem severEach_heir {preds : List BlockId} (hexit : gone.isExit = true → preds.length ≤ 1)
    {heir : Option BlockId}
    (hrun : outcome (preds.foldlM (severPredecessor id gone) none) g = (.ok heir, g')) :
    (gone.isExit = false → heir = none) ∧ ∀ p, heir = some p →
      ∃ b, g'.bare? p = some b ∧ b.terminator.isReturn = (heirTerminator gone p).isReturn := by
  cases he : gone.isExit with
  | false =>
      suffices hnone : heir = none from ⟨fun _ => hnone, by simp [hnone]⟩
      clear hexit
      induction preds generalizing g with
      | nil => exact (Except.ok.inj (congrArg Prod.fst hrun)).symm
      | cons p preds ih =>
          rw [List.foldlM_cons, outcome_bind] at hrun
          rcases hstep : outcome (severPredecessor id gone none p) g with ⟨r, g₁⟩
          rw [hstep] at hrun
          cases r with
          | error e => exact absurd (congrArg Prod.fst hrun) (by simp)
          | ok h =>
              rcases severPredecessor_heir hstep with rfl | ⟨-, hisExit, -⟩
              · exact ih hrun
              · rw [he] at hisExit
                exact absurd hisExit (by simp)
  | true =>
      refine ⟨by simp, ?_⟩
      match preds, hexit he with
      | [], _ =>
          rintro p rfl
          exact absurd (Except.ok.inj (congrArg Prod.fst hrun)) (by simp)
      | [q], _ =>
          rintro p rfl
          have hstep : outcome (severPredecessor id gone none q) g = (.ok (some p), g') := by
            rw [List.foldlM_cons, outcome_bind] at hrun
            rcases hfirst : outcome (severPredecessor id gone none q) g with ⟨r, g₁⟩
            rw [hfirst] at hrun
            cases r with
            | error e => exact absurd (congrArg Prod.fst hrun) (by simp)
            | ok h => exact hrun
          rcases severPredecessor_heir hstep with hnone | ⟨hq, -, hb⟩
          · exact absurd hnone (by simp)
          · obtain rfl : p = q := Option.some.inj hq
            exact hb

/-- The cuts fail only where a predecessor would have to lead to a block that does not
exist. -/
theorem severEach_error {preds : List BlockId} {heir : Option BlockId} {e : Error}
    (hrun : outcome (preds.foldlM (severPredecessor id gone) heir) g = (.error e, g')) :
    ∃ label, e = .unknownNode label := by
  induction preds generalizing g heir with
  | nil => exact absurd (congrArg Prod.fst hrun) (by simp)
  | cons p preds ih =>
      rw [List.foldlM_cons] at hrun
      rcases severPredecessor_cases id gone heir p g with
        ⟨-, hstep⟩ | ⟨b, t, inherits, -, -, ⟨-, hstep⟩ | ⟨-, label, hstep⟩⟩
      · rw [outcome_bind_ok hstep] at hrun
        exact ih hrun
      · rw [outcome_bind_ok hstep] at hrun
        exact ih hrun
      · rw [outcome_bind_error hstep] at hrun
        cases hrun
        exact ⟨label, rfl⟩

/-- Who inherits: nobody, or the only predecessor. -/
def Inherited (g₀ : FlowGraph) (id : BlockId) (gone : Block) (preds : List BlockId)
    (heir : Option BlockId) (g : FlowGraph) : Prop :=
  (heir = none ∧ ∀ p ∈ preds, ∀ b, g₀.bare? p = some b → ¬ IsHeir id gone b) ∨
    ∃ p b, heir = some p ∧ preds = [p] ∧ g₀.bare? p = some b ∧ IsHeir id gone b ∧
      g.bare? p = some { b with terminator := heirTerminator gone p }

/-- **All predecessors.**  The only one of an exit may be the heir. -/
theorem Cut.severEach (h₀ : WellFormed g₀) (hgone : g₀.bare? id = some gone.bare)
    {preds : List BlockId} (hexit : gone.isExit = true → preds.length ≤ 1)
    (h : Cut g₀ id preds none (g₀.detach id))
    (hpreds : ∀ p ∈ preds, p ≠ id ∧ g₀.contains p = true) :
    ∃ heir g', outcome (preds.foldlM (FlowGraph.severPredecessor id gone) none) (g₀.detach id) =
        (.ok heir, g') ∧ Cut g₀ id [] heir g' ∧ Inherited g₀ id gone preds heir g' := by
  cases he : gone.isExit with
  | false =>
      obtain ⟨g', hrun, hcut⟩ := h.severAll h₀ hgone he hpreds
      refine ⟨none, g', hrun, hcut, .inl ⟨rfl, fun p _ b _ hheir => ?_⟩⟩
      rw [hheir.1] at he
      exact absurd he (by simp)
  | true =>
      match preds, hexit he with
      | [], _ => exact ⟨none, _, rfl, h, .inl ⟨rfl, by simp⟩⟩
      | [p], _ =>
          obtain ⟨hp, hlive⟩ := hpreds p (List.mem_cons_self ..)
          rw [contains_eq_isSome_bare?] at hlive
          obtain ⟨b, hb⟩ := Option.isSome_iff_exists.1 hlive
          obtain ⟨heir, g', hrun, hcut, hheir⟩ := h.severPredecessor h₀ hgone hp
            (((sameButLists_detach g₀ id).bare p).trans hb)
          refine ⟨heir, g', by rw [List.foldlM_cons, outcome_bind_ok hrun]; rfl, hcut, ?_⟩
          rcases hheir with ⟨rfl, hno⟩ | ⟨rfl, hheir, hbare⟩
          · refine .inl ⟨rfl, fun q hq b' hb' => ?_⟩
            obtain rfl := List.mem_singleton.1 hq
            rw [hb] at hb'
            cases hb'
            exact hno
          · exact .inr ⟨p, b, rfl, rfl, hb, hheir, hbare⟩

end FlowGraph
end FlowVerifier
