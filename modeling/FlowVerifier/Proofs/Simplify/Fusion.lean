import FlowVerifier.Proofs.Flow.Merge
import FlowVerifier.Proofs.Simplify.Soundness
import FlowVerifier.Simplify.Fusion

/-!
# Fusing blocks

A block is fused with the one block that leads to it.  A run of the original program
makes two steps where the new program makes one.  No run of the new program can come to
the block that is gone: no edge but the fused one led to it, and no marker names it.
-/

namespace FlowVerifier
namespace Simplify

open FlowGraph Run

variable {lax : Prop} {g g' : FlowGraph} {into gone : BlockId} {b tail : Block}

/-! ## What the pass checks -/

/-- A block can be fused: only one block leads to it, and it is entered in no other
way. -/
structure Fusible (g : FlowGraph) (into gone : BlockId) (b tail : Block) : Prop where
  mergeable : Mergeable g into gone b tail
  populated : b.populated = true
  tailPopulated : tail.populated = true
  unmarked : ∀ {id c}, g.bare? id = some c → .pushState tail.name ∉ c.body

theorem not_marked {name : String} (h : (g.stateReferences name).isEmpty = true) {id : BlockId}
    {c : Block} (hc : g.bare? id = some c) : .pushState name ∉ c.body := by
  obtain ⟨c', hc', rfl⟩ := Option.map_eq_some_iff.1 hc
  intro hmem
  have hstate : name ∈ c'.pushedStates := List.mem_filterMap.2 ⟨_, hmem, rfl⟩
  have href : id ∈ g.stateReferences name := by
    unfold stateReferences
    refine List.mem_map.2 ⟨(id, c'), List.mem_filter.2 ⟨mem_blocks.2 hc', ?_⟩, rfl⟩
    simpa using hstate
  rw [List.isEmpty_iff.1 h] at href
  exact nomatch href

/-- What it means that a block is entered along edges only. -/
theorem not_enteredElsewhere (h : isEnteredElsewhere g gone tail = false) :
    (∀ {f info}, g.function? f = some info → info.entry ≠ some gone) ∧
      (∀ {f info c}, g.function? f = some info → c ∈ info.calls → c.returnTo ≠ gone) ∧
      (g.stateReferences tail.name).isEmpty = true := by
  unfold isEnteredElsewhere at h
  simp only [Bool.or_eq_false_iff, Bool.not_eq_false'] at h
  obtain ⟨hfunctions, hmarkers⟩ := h
  have hf : ∀ {f info}, g.function? f = some info →
      (info.entry == some gone || info.calls.any (·.returnTo == gone)) = false := by
    intro f info hinfo
    rw [Array.any_eq_false'] at hfunctions
    have hmem : info ∈ g.functions := Array.mem_of_getElem? hinfo
    simpa using hfunctions info hmem
  refine ⟨fun hinfo heq => ?_, fun {f info c} hinfo hc heq => ?_, hmarkers⟩
  · have hnone := hf hinfo
    simp [heq] at hnone
  · have hnone := hf hinfo
    simp only [Bool.or_eq_false_iff] at hnone
    have hany := List.any_eq_false.1 hnone.2 c hc
    simp [heq] at hany

theorem fusible_of_fusionTarget? (hg : WellFormed g) (h : fusionTarget? g gone = some into) :
    ∃ b tail, Fusible g into gone b tail := by
  unfold fusionTarget? at h
  split at h
  · exact nomatch h
  · rename_i tail htail
    split at h
    · exact nomatch h
    · rename_i hcond
      simp only [Bool.or_eq_true, Bool.not_eq_true', beq_iff_eq, not_or, Bool.not_eq_false] at hcond
      split at h
      · rename_i pred hpreds
        split at h
        · rename_i habsorb
          cases h
          simp only [Bool.and_eq_true, Bool.not_eq_true', canAbsorb, bne_iff_ne] at habsorb
          obtain ⟨⟨hne, hpred⟩, helsewhere⟩ := habsorb
          obtain ⟨hentry, hcalls, hmarkers⟩ := not_enteredElsewhere helsewhere
          obtain ⟨b, hb, hprops⟩ := (Option.any_eq_true _ _).1 hpred
          simp only [Bool.and_eq_true, beq_iff_eq] at hprops
          obtain ⟨⟨hpop, hroutine⟩, hjump⟩ := hprops
          have honly : ∀ i, gone ∈ g.successors i → i = into := by
            intro i hi
            have hmem : i ∈ g.predecessors gone := (hg.edges i gone).2 ⟨trivial, hi⟩
            obtain ⟨tail', htail', hmem⟩ := mem_predecessors_iff.1 hmem
            rw [htail, Option.some.injEq] at htail'
            rw [← htail', hpreds] at hmem
            simpa using hmem
          refine ⟨b, tail, ⟨hb, htail, hne, Terminator.eq_jump_of_beq hjump, hroutine, honly,
            hcond.2, hentry, hcalls⟩, hpop, hcond.1, fun hc => not_marked hmarkers hc⟩
        · exact nomatch h
      · exact nomatch h

/-! ## Two steps for one -/

theorem execAll_append {env : Environment} {resolve : String → Option BlockId}
    (xs ys : List Instruction) (s : State) :
    s.execAll env resolve (xs ++ ys) =
      match s.execAll env resolve xs with
      | .ok t => t.execAll env resolve ys
      | .error e => .error e := by
  induction xs generalizing s with
  | nil => rfl
  | cons i xs ih =>
      simp only [List.cons_append, State.execAll]
      cases s.exec env resolve i with
      | ok t => exact ih t
      | error fault => rfl

/-- The first block has run, and jumps. -/
theorem runBlock_of_execAll {env : Environment} {resolve : String → Option BlockId}
    {s t : State} (hpop : b.populated = true) (hrun : s.execAll env resolve b.body = .ok t)
    (hjump : b.terminator = .jump gone) : runBlock env resolve b.bare s = .at gone t := by
  simp only [runBlock, Block.bare, hpop, if_true, hrun, hjump]
  rfl

/-- What is left of the fused block after the first part has run. -/
theorem runBlock_merged {env : Environment} {resolve : String → Option BlockId} {s t : State}
    (hpop : b.populated = true) (htail : tail.populated = true)
    (hrun : s.execAll env resolve b.body = .ok t) :
    runBlock env resolve (merged b tail).bare s = runBlock env resolve tail.bare t := by
  simp only [runBlock, Block.bare, merged, hpop, htail, if_true, execAll_append, hrun]

/-- The first part fails. -/
theorem runBlock_of_fault {env : Environment} {resolve : String → Option BlockId}
    {s t : State} {fault : Fault} {c : Block} {rest : List Instruction}
    (hpop : c.populated = true) (hbody : c.body = b.body ++ rest)
    (hrun : s.execAll env resolve b.body = .error (fault, t)) :
    runBlock env resolve c s = .ended (.faulted fault) t := by
  simp only [runBlock, hpop, if_true, hbody, execAll_append, hrun]

/-- The blocks that are kept stand for themselves. -/
def Kept (gone i j : BlockId) : Prop := i = j ∧ i ≠ gone

/-- The graph in which two blocks are fused. -/
structure Fused (g g' : FlowGraph) (into gone : BlockId) (b tail : Block) : Prop where
  bare : ∀ id, g'.bare? id = if gone = id then none
    else if into = id then some (merged b tail).bare else g.bare? id
  first : g'.first = g.first
  last : g'.last = if g.last = some gone then some into else g.last
  functions : ∀ k, g'.function? k = (g.function? k).map (handOver gone into)

namespace Fused

/-- A merge of blocks that can be fused fuses them. -/
theorem mergeResult (hf : Fusible g into gone b tail) :
    Fused g (g.mergeResult into gone tail) into gone b tail where
  bare := bare?_mergeResult hf.mergeable
  first := first_mergeResult g into gone tail
  last := last_mergeResult g into gone tail
  functions := function?_mergeResult g into gone tail

/-- A block of the new graph has the name it had. -/
theorem name_back (h : Fused g g' into gone b tail) (hf : Fusible g into gone b tail)
    {id : BlockId} {c' : Block} (hc' : g'.bare? id = some c') :
    id ≠ gone ∧ ∃ c, g.bare? id = some c ∧ c.name = c'.name := by
  rw [h.bare] at hc'
  split at hc'
  · exact nomatch hc'
  · rename_i hne
    split at hc'
    · rename_i hinto
      subst hinto
      cases hc'
      refine ⟨Ne.symm hne, b.bare, ?_, rfl⟩
      rw [bare?, hf.mergeable.head]
      rfl
    · exact ⟨Ne.symm hne, c', hc', rfl⟩

/-- A block that is kept keeps its name. -/
theorem name_on (h : Fused g g' into gone b tail) (hf : Fusible g into gone b tail)
    {id : BlockId} {c : Block} (hc : g.bare? id = some c) (hne : id ≠ gone) :
    ∃ c', g'.bare? id = some c' ∧ c'.name = c.name := by
  rw [h.bare, if_neg (Ne.symm hne)]
  split
  · rename_i hinto
    subst hinto
    rw [bare?, hf.mergeable.head] at hc
    cases hc
    exact ⟨_, rfl, rfl⟩
  · exact ⟨c, hc, rfl⟩

theorem uniqueNames (h : Fused g g' into gone b tail) (hf : Fusible g into gone b tail)
    (hg : UniqueNames g) : UniqueNames g' :=
  hg.congr fun _ _ hc' => (h.name_back hf hc').2

/-- Markers name blocks that are kept. -/
theorem namesAlike (h : Fused g g' into gone b tail) (hf : Fusible g into gone b tail)
    (hg : UniqueNames g) {name : String} (hname : name ≠ tail.name) :
    NamesAlike (Kept gone) (g.idOf? name) (g'.idOf? name) := by
  cases hid : g.idOf? name with
  | none =>
      refine .inl ⟨rfl, idOf?_eq_none_iff.2 fun id c' hc' heq => ?_⟩
      obtain ⟨_, c, hc, hsame⟩ := h.name_back hf hc'
      exact idOf?_eq_none_iff.1 hid id c hc (hsame.trans heq)
  | some id =>
      obtain ⟨c, hc, rfl⟩ := name_of_idOf? hid
      have hne : id ≠ gone := by
        rintro rfl
        rw [bare?, hf.mergeable.found] at hc
        cases hc
        exact hname rfl
      obtain ⟨c', hc', hsame⟩ := h.name_on hf hc hne
      refine .inr ⟨id, id, rfl, ?_, rfl, hne⟩
      exact (idOf?_eq_some_iff (h.uniqueNames hf hg)).2 ⟨c', hc', hsame⟩

theorem bodyAlike (h : Fused g g' into gone b tail) (hf : Fusible g into gone b tail)
    (hg : UniqueNames g) {id : BlockId} {c : Block} (hc : g.bare? id = some c) :
    BodyAlike (fun _ => False) (Kept gone) g.idOf? g'.idOf? c.body c.body := by
  refine .refl fun i hi => .refl (fun _ _ => not_false) fun name heq => ?_
  subst heq
  refine h.namesAlike hf hg ?_
  rintro rfl
  exact hf.unmarked hc hi

/-- Terminators other than the one that is fused lead to blocks that are kept. -/
theorem exitAlike (hf : Fusible g into gone b tail) (hg : WellFormed g) {id : BlockId}
    {c : Block} (hc : g.bare? id = some c) (hid : id ≠ into) :
    ExitAlike lax (fun _ => False) (Kept gone) c.terminator c.terminator := by
  refine .refl (fun _ _ => not_false) fun t ht => ⟨rfl, ?_⟩
  rintro rfl
  exact hid (hf.mergeable.only id (hg.target_live hc ht).1)

/-- **A program with fused blocks** runs like the one without. -/
theorem preserves (h : Fused g g' into gone b tail) {env : Environment}
    (hfree : env.checked = false) (hf : Fusible g into gone b tail) (hg : Proper g) :
    Preserves lax env g g' := by
  have hhead : g.bare? into = some b.bare := bare?_of_block? hf.mergeable.head
  have htail : g.bare? gone = some tail.bare := bare?_of_block? hf.mergeable.found
  refine (simulation_of_alike (X := fun _ => False) (M := Kept gone) ?_ ?_).preserves
  · refine start_alike (fun hfirst => h.first.trans hfirst) fun i hi =>
      ⟨i, h.first.trans hi, rfl, ?_⟩
    rintro rfl
    exact hf.mergeable.first hi
  · rintro i _ s t ⟨rfl, hi⟩ hst
    by_cases hinto : into = i
    · -- the original program runs both blocks, one after the other
      subst hinto
      have hmerged : g'.bare? into = some (merged b tail).bare := by
        rw [h.bare, if_neg (Ne.symm hi), if_pos rfl]
      refine ⟨1, ?_⟩
      show Continues lax _ _ (step env g (step env g (.at into s))) _
      rw [step_at hhead, step_at hmerged]
      rcases hst.execAll hfree (h.bodyAlike hf hg.names hhead) with
        ⟨s₁, t₁, hs, ht, h₁⟩ | ⟨fault, s₁, t₁, hs, ht, h₁⟩
      · rw [runBlock_of_execAll hf.populated hs hf.mergeable.jumps, step_at htail,
          runBlock_merged hf.populated hf.tailPopulated ht]
        exact h₁.runBlock hfree ⟨rfl, h.bodyAlike hf hg.names htail,
          exitAlike hf hg.wellFormed htail (Ne.symm hi)⟩
      · rw [runBlock_of_fault (b := b) (c := b.bare) hf.populated (List.append_nil _).symm hs,
          runBlock_of_fault (b := b) (c := (merged b tail).bare) hf.populated rfl ht]
        exact .inl (.ended h₁.visible)
    · have hi' : g'.bare? i = (g.bare? i).map id := by
        rw [h.bare, if_neg (Ne.symm hi), if_neg hinto, Option.map_id, id]
      refine ⟨0, hst.step hfree hi' fun c hc => ?_⟩
      exact ⟨rfl, h.bodyAlike hf hg.names hc, exitAlike hf hg.wellFormed hc (Ne.symm hinto)⟩

end Fused

/-- **Fusing a block** with its predecessor is sound. -/
theorem sound_fuseBlock (id : BlockId) : Sound lax (fuseBlock id) := by
  intro w hw
  refine SoundOn.graph_bind ?_
  cases htarget : fusionTarget? w.graph id with
  | none => exact Sound.pure [] w hw
  | some pred =>
      obtain ⟨b, tail, hf⟩ := fusible_of_fusionTarget? hw.wellFormed htarget
      have hfused := Fused.mergeResult hf
      have hstands : StandsIn lax w.graph (w.graph.mergeResult pred id tail) :=
        ⟨⟨wellFormed_mergeResult hw.wellFormed hf.mergeable, hfused.uniqueNames hf hw.names⟩,
          fun _ hfree => hfused.preserves hfree hf hw⟩
      refine .after (outcome_bind_ok (outcome_edit (outcome_mergeInto hw.wellFormed hf.mergeable)))
        hstands ?_
      exact ((Silent.record _).bind fun _ => Silent.graph.bind fun _ => .pure _).sound _
        hstands.proper

end Simplify
end FlowVerifier
