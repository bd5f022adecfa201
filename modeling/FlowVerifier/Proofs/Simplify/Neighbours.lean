import FlowVerifier.Proofs.Simplify.Rest

/-!
# The blocks that a pass does not report

A pass that changes one block may give another one something to do.  It reports the
neighbours of the block it has changed, and at every other block the passes that rest go on
to rest (`Progress.atRest`).  There are two exceptions, both of the elision of empty blocks:

* a branch between the detour and its target becomes a jump, and the variables of its test
  may be read no more (`LosesNoRead`), so that their definitions in other blocks are unused;
* the calls that the detour is on record for are forgotten (`LosesNoCall`), and the blocks
  where they returned to may be fused.
-/

namespace FlowVerifier
namespace Simplify

open FlowGraph

variable {g g' : FlowGraph} {id into gone old new i j : BlockId} {b b' c tail : Block}
  {x oldName newName name : String} {changed : List BlockId}

/-! ## Blocks that are the same but for markers -/

/-- The blocks differ in no more than the names on markers. -/
def Remarked (b b' : Block) : Prop :=
  ∃ old new, b' = { b with body := b.body.map (retargetMarker old new) }

theorem retargetMarker_self (name : String) (i : Instruction) :
    retargetMarker name name i = i := by
  cases i with
  | pushState other =>
      by_cases h : other = name <;> simp [retargetMarker, h]
  | _ => rfl

theorem Remarked.refl (b : Block) : Remarked b b := by
  refine ⟨"", "", ?_⟩
  rw [funext (retargetMarker_self ""), List.map_id']

theorem definedVariable_retargetMarker (i : Instruction) :
    (retargetMarker oldName newName i).definedVariable = i.definedVariable := by
  cases i <;> rfl

theorem isPlainDefinition_retargetMarker (i : Instruction) :
    isPlainDefinition (retargetMarker oldName newName i) = isPlainDefinition i := by
  cases i <;> rfl

theorem defines_map_retargetMarker {body : List Instruction} :
    Defines (body.map (retargetMarker oldName newName)) x ↔ Defines body x := by
  simp [Defines, definedVariable_retargetMarker]

/-- Markers do not matter for what is known and for what is to be put in. -/
theorem propagate_map_retargetMarker (oldName newName : String) (env : Constants)
    (body : List Instruction) :
    (propagate env (body.map (retargetMarker oldName newName))).known =
        (propagate env body).known ∧
      (propagate env (body.map (retargetMarker oldName newName))).notes =
        (propagate env body).notes := by
  induction body generalizing env with
  | nil => exact ⟨rfl, rfl⟩
  | cons i rest ih =>
      cases i with
      | pushState name => exact ih env
      | _ =>
          simp only [List.map_cons, retargetMarker, propagate]
          exact ⟨(ih _).1, by rw [(ih _).2]⟩

/-- Propagation of constants rests at a block whatever its markers are. -/
theorem Steady.remarked {removeUnused : Bool} (h : Steady removeUnused g j b)
    (hb : Remarked b b')
    (hunused : removeUnused = true → ∀ x, Defines b.body x → Unused g' j b' x → Unused g j b x) :
    Steady removeUnused g' j b' := by
  obtain ⟨old, new, rfl⟩ := hb
  obtain ⟨hknown, hnotes⟩ :=
    propagate_map_retargetMarker old new .empty b.body
  cases h with
  | mistake hr => exact .mistake (by rw [hknown]; exact hr)
  | quiet hquiet hr hneeded =>
      refine .quiet (hnotes.trans hquiet) (by rw [hknown]; exact hr) fun hremove x hx hu => ?_
      have hdefines : Defines b.body x := defines_map_retargetMarker.1 hx
      exact hneeded hremove x hdefines (hunused hremove x hdefines hu)

/-- Elision rests at a block whatever its markers are, if it is the last as before. -/
theorem detourTarget?_remarked (hb : g.bare? j = some b) (hb' : g'.bare? j = some b')
    (hsame : Remarked b b') (hlast : g.last = some j → g'.last = some j)
    (h : detourTarget? g j = none) : detourTarget? g' j = none := by
  obtain ⟨old, new, rfl⟩ := hsame
  rw [Option.eq_none_iff_forall_not_mem]
  intro target htarget
  obtain ⟨c, hd⟩ := detour_of_detourTarget? htarget
  obtain rfl := Option.some.inj (hb'.symm.trans hd.found)
  have hdetour : Detour g j target b :=
    ⟨hb, hd.populated, List.map_eq_nil_iff.1 hd.empty, hd.jumps, hd.distinct,
      fun hj => hd.notLast (hlast hj)⟩
  rw [hdetour.target] at h
  cases h

/-! ## Blocks that are entered as before -/

/-- A block is entered in all the ways in which it was. -/
structure SameEntrances (g g' : FlowGraph) (j : BlockId) : Prop where
  first : g.first = some j → g'.first = some j
  entry : ∀ {k info}, g.function? k = some info → info.entry = some j →
    ∃ info', g'.function? k = some info' ∧ info'.entry = some j
  returns : ∀ {k info c}, g.function? k = some info → c ∈ info.calls → c.returnTo = j →
    ∃ info' c', g'.function? k = some info' ∧ c' ∈ info'.calls ∧ c'.returnTo = j
  edges : ∀ {i}, j ∈ g.successors i → j ∈ g'.successors i
  jumps : ∀ {i b'}, g'.bare? i = some b' → b'.terminator = .jump j →
    ∃ b, g.bare? i = some b ∧ b.terminator = .jump j ∧ b.populated = b'.populated ∧
      b.function = b'.function
  marks : ∀ {t i c}, g.bare? j = some t → g.bare? i = some c → .pushState t.name ∈ c.body →
    ∃ i' c', g'.bare? i' = some c' ∧ .pushState t.name ∈ c'.body

/-- Fusion rests at a block that is entered as before. -/
theorem fusionTarget?_remarked (hg : WellFormed g) (hlisted : ListedOnce g)
    (hg' : WellFormed g') (hb : g.bare? j = some b) (hb' : g'.bare? j = some b')
    (hsame : Remarked b b') (hentered : SameEntrances g g' j)
    (h : fusionTarget? g j = none) : fusionTarget? g' j = none := by
  obtain ⟨old, new, rfl⟩ := hsame
  rw [Option.eq_none_iff_forall_not_mem]
  intro into hinto
  obtain ⟨p', tail', hf⟩ := fusible_of_fusionTarget? hg' hinto
  have hm := hf.mergeable
  obtain ⟨hname, hpop, hfunction⟩ : tail'.bare.name = b.name ∧
      tail'.bare.populated = b.populated ∧ tail'.bare.function = b.function := by
    have hfound : g'.bare? j = some tail'.bare := bare?_of_block? hm.found
    rw [Option.some.inj (hfound.symm.trans hb')]
    exact ⟨rfl, rfl, rfl⟩
  have hp' : g'.bare? into = some p'.bare := bare?_of_block? hm.head
  obtain ⟨q, hq, hjumps, hqpop, hqfunction⟩ := hentered.jumps hp' hm.jumps
  obtain ⟨p, hp, rfl⟩ := Option.map_eq_some_iff.1 hq
  obtain ⟨tail, htail, rfl⟩ := Option.map_eq_some_iff.1 hb
  have hfusible : Fusible g into j p tail :=
    { mergeable :=
        { head := hp
          found := htail
          distinct := hm.distinct
          jumps := hjumps
          routine := (hqfunction.trans hm.routine).trans hfunction
          only := fun i hi => hm.only i (hentered.edges hi)
          first := fun hj => hm.first (hentered.first hj)
          entry := by
            intro k info hk hj
            obtain ⟨info', hk', hj'⟩ := hentered.entry hk hj
            exact hm.entry hk' hj'
          calls := by
            intro k info c hk hc hj
            obtain ⟨info', c', hk', hc', hj'⟩ := hentered.returns hk hc hj
            exact hm.calls hk' hc' hj' }
      populated := hqpop.trans hf.populated
      tailPopulated := hpop.symm.trans hf.tailPopulated
      unmarked := by
        intro i c hc hmark
        obtain ⟨i', c', hc', hmark'⟩ := hentered.marks hb hc hmark
        exact hf.unmarked hc' (hname ▸ hmark') }
  rw [hfusible.target hlisted hg] at h
  cases h

/-! ## Blocks that one change spares -/

/-- A change to other blocks leaves the passes that rest at this block nothing to do, with
the exceptions named. -/
structure Spares (g g' : FlowGraph) (j : BlockId) (needed entered : Prop) : Prop where
  /-- The block is the same but for markers. -/
  remarked : ∀ {b'}, g'.bare? j = some b' → ∃ b, g.bare? j = some b ∧ Remarked b b'
  /-- The last block stays the last. -/
  last : g.last = some j → g'.last = some j
  /-- What was needed in the block is needed. -/
  unused : needed → ∀ {b b' x}, g.bare? j = some b → g'.bare? j = some b' → Defines b.body x →
    Unused g' j b' x → Unused g j b x
  /-- The block is entered as before. -/
  entrances : entered → SameEntrances g g' j

/-- A pass that rests at a block that is spared goes on to rest. -/
theorem Spares.atRest {needed entered : Prop} (h : Spares g g' j needed entered)
    (hg : WellFormed g) (hlisted : ListedOnce g) (hg' : WellFormed g') {pass : Pass}
    (hneeded : pass = .constants true → needed) (hentered : pass = .fusion → entered)
    (hrest : pass.AtRest g j) : pass.AtRest g' j := by
  have hgone : g'.bare? j = none → g'.block? j = none := Option.map_eq_none_iff.1
  cases pass with
  | constants removeUnused =>
      intro b' hb'
      obtain ⟨b, hb, hsame⟩ := h.remarked hb'
      refine (hrest b hb).remarked hsame fun hremove x hx hu => ?_
      exact h.unused (hneeded (by rw [hremove])) hb hb' hx hu
  | emptyBlocks =>
      show detourTarget? g' j = none
      cases hb' : g'.bare? j with
      | none => simp [detourTarget?, hgone hb']
      | some b' =>
          obtain ⟨b, hb, hsame⟩ := h.remarked hb'
          exact detourTarget?_remarked hb hb' hsame h.last hrest
  | fusion =>
      show fusionTarget? g' j = none
      cases hb' : g'.bare? j with
      | none => simp [fusionTarget?, hgone hb']
      | some b' =>
          obtain ⟨b, hb, hsame⟩ := h.remarked hb'
          exact fusionTarget?_remarked hg hlisted hg' hb hb' hsame
            (h.entrances (hentered rfl)) hrest

/-! ## A block that was simplified -/

namespace Trimmed

theorem bare_of_ne (h : Rewritten g g' id b') (hi : i ≠ id) : g'.bare? i = g.bare? i := by
  rw [h.bare, if_neg (Ne.symm hi)]

/-- What is unused after the block was simplified was unused before. -/
theorem unused (ht : Trimmed g id b b' changed) (hb : g.bare? id = some b)
    (h : Rewritten g g' id b') (hj : j ≠ id) (hc : g.bare? j = some c)
    (hx : Defines c.body x) (hunused : Unused g' j c x) : Unused g j c x := by
  have hc' : g'.bare? j = some c := (bare_of_ne h hj).trans hc
  obtain ⟨hread, honly, hplain⟩ := (unused_iff hc' hx).1 hunused
  -- the simplified block did not write the variable, for now this block is the only one
  have hkept : ¬ Defines b.body x := by
    intro hdefines
    rcases ht.defines x hdefines with hdefines | hid
    · exact hj (honly h.found hdefines).symm
    · exact hj (hid hc hx)
  refine (unused_iff hc hx).2 ⟨fun {i d} hd hin => ?_, fun {i d} hd hdefines => ?_, hplain⟩
  · by_cases hi : i = id
    · subst hi
      obtain rfl := Option.some.inj (hd.symm.trans hb)
      exact (ht.reads x hin).elim (hread h.found) hkept
    · exact hread ((bare_of_ne h hi).trans hd) hin
  · by_cases hi : i = id
    · subst hi
      obtain rfl := Option.some.inj (hd.symm.trans hb)
      exact absurd hdefines hkept
    · exact honly ((bare_of_ne h hi).trans hd) hdefines

/-- A block that is not reported is entered as before. -/
theorem sameEntrances (ht : Trimmed g id b b' changed) (hb : g.bare? id = some b)
    (h : Rewritten g g' id b') (hj : j ∉ changed) : SameEntrances g g' j := by
  have hinfo : ∀ {k info}, g.function? k = some info → g'.function? k = some info := by
    intro k info hk
    rwa [function?, h.functions]
  have hfunction : b'.function = b.function := by rw [ht.same]
  have hpop : b'.populated = b.populated := by rw [ht.same]
  constructor
  case first => exact fun hfirst => h.first.trans hfirst
  case entry => exact fun hk hentry => ⟨_, hinfo hk, hentry⟩
  case returns => exact fun hk hcall hreturn => ⟨_, _, hinfo hk, hcall, hreturn⟩
  case edges =>
    intro i hi
    obtain ⟨d, hd, hedge⟩ := mem_successors.1 hi
    by_cases heq : i = id
    · subst heq
      obtain rfl := Option.some.inj (hd.symm.trans hb)
      refine mem_successors.2 ⟨b', h.found, ?_⟩
      split at hedge
      · rename_i hret
        obtain ⟨f, info, hf, hk, hcall⟩ := hedge
        rw [if_pos (ht.returns hret)]
        exact ⟨f, info, hfunction.trans hf, hinfo hk, hcall⟩
      · have htarget : j ∈ b'.terminator.targets := (ht.targets j hedge).resolve_right hj
        rwa [if_neg (by simp [Terminator.isReturn_of_mem_targets htarget])]
    · refine mem_successors.2 ⟨d, (bare_of_ne h heq).trans hd, ?_⟩
      simpa only [function?, h.functions] using hedge
  case jumps =>
    intro i d hd hjump
    by_cases heq : i = id
    · subst heq
      obtain rfl := Option.some.inj (h.found.symm.trans hd)
      exact ⟨b, hb, (ht.jumps j hjump).resolve_right hj, hpop.symm, hfunction.symm⟩
    · exact ⟨d, (bare_of_ne h heq).symm.trans hd, hjump, rfl, rfl⟩
  case marks =>
    intro t i d _ hd hmark
    by_cases heq : i = id
    · subst heq
      obtain rfl := Option.some.inj (hd.symm.trans hb)
      exact ⟨i, b', h.found, ht.marks _ hmark⟩
    · exact ⟨i, d, (bare_of_ne h heq).trans hd, hmark⟩

/-- **Propagation of constants** spares the blocks that it does not report. -/
theorem spares (ht : Trimmed g id b b' changed) (hb : g.bare? id = some b)
    (h : Rewritten g g' id b') (hj : j ∉ changed) : Spares g g' j True True := by
  have hne : j ≠ id := fun heq => hj (heq ▸ ht.reported)
  refine ⟨fun {c} hc => ⟨c, (bare_of_ne h hne).symm.trans hc, .refl c⟩,
    fun hlast => h.last.trans hlast, fun _ c c' x hc hc' hx hunused => ?_,
    fun _ => ht.sameEntrances hb h hj⟩
  obtain rfl := Option.some.inj (hc'.symm.trans ((bare_of_ne h hne).trans hc))
  exact ht.unused hb h hne hc hx hunused

end Trimmed

/-! ## A detour that was taken out -/

/-- No variable that is written and was read is read no more. -/
def LosesNoRead (g g' : FlowGraph) : Prop :=
  ∀ x ∈ g.readVariables, x ∈ g'.writtenVariables → x ∈ g'.readVariables

/-- The block is on record for no call. -/
def LosesNoCall (g : FlowGraph) (id : BlockId) : Prop :=
  ∀ {k info c}, g.function? k = some info → c ∈ info.calls → c.caller ≠ id

theorem mem_writtenVariables :
    x ∈ g.writtenVariables ↔ ∃ i c, g.bare? i = some c ∧ Defines c.body x := by
  unfold writtenVariables bare? Defines
  simp only [List.mem_eraseDups, List.mem_mergeSort, List.mem_flatMap, List.mem_filterMap,
    Prod.exists, mem_blocks, Option.map_eq_some_iff]
  constructor
  · rintro ⟨i, c, hc, hx⟩
    exact ⟨i, _, ⟨c, hc, rfl⟩, hx⟩
  · rintro ⟨i, _, ⟨c, hc, rfl⟩, hx⟩
    exact ⟨i, c, hc, hx⟩

theorem mem_readVariables_bare :
    x ∈ g.readVariables ↔ ∃ i c, g.bare? i = some c ∧ x ∈ readNamesOf c := by
  rw [mem_readVariables]
  unfold bare?
  constructor
  · rintro ⟨i, c, hc, hx⟩
    exact ⟨i, c.bare, by rw [hc]; rfl, hx⟩
  · rintro ⟨i, c, hc, hx⟩
    obtain ⟨d, hd, rfl⟩ := Option.map_eq_some_iff.1 hc
    exact ⟨i, d, hd, hx⟩

/-- A target that is neither taken out nor stands in for another stays one. -/
theorem mem_targets_retarget_of_ne {t : Terminator} (h : j ∈ t.targets) (hj : j ≠ old) :
    j ∈ (t.retarget old new).targets := by
  cases t with
  | finish => cases h
  | ret value => cases h
  | jump target =>
      obtain rfl : j = target := by simpa [Terminator.targets] using h
      simp [Terminator.retarget, Terminator.targets, hj]
  | branch test onTrue onFalse =>
      rw [Terminator.retarget, Terminator.mem_targets_normalize]
      have hor : j = onTrue ∨ j = onFalse := by simpa [Terminator.targets] using h
      rcases hor with rfl | rfl <;> simp [Terminator.targets, hj]

/-- A terminator that comes to jump to another block than the one that stands in jumped
there. -/
theorem eq_jump_of_retarget {t : Terminator} {f : Option FunctionId} (ht : SoundExit t f)
    (h : t.retarget old new = .jump j) (hj : j ≠ new) : t = .jump j := by
  by_cases hold : old ∈ t.targets
  · cases t with
    | finish => cases hold
    | ret value => cases hold
    | jump target =>
        obtain rfl : old = target := by simpa [Terminator.targets] using hold
        simp only [Terminator.retarget, if_true] at h
        cases h
        exact absurd rfl hj
    | branch test onTrue onFalse =>
        have hor : old = onTrue ∨ old = onFalse := by simpa [Terminator.targets] using hold
        have hboth : ∀ y ∈ [if onTrue = old then new else onTrue,
            if onFalse = old then new else onFalse], y = j := by
          intro y hy
          have hmem : y ∈ ((Terminator.branch test onTrue onFalse).retarget old new).targets := by
            rw [Terminator.retarget, Terminator.mem_targets_normalize]
            exact hy
          rw [h] at hmem
          exact List.mem_singleton.1 hmem
        rcases hor with rfl | rfl <;> exact absurd (hboth new (by simp)).symm hj
  · rwa [Terminator.retarget_of_not_mem hold ht.sides] at h

namespace Elided

variable {bn : Block}

/-- A block with no edge to the detour is the same but for markers. -/
theorem remarked (h : Elided g g' old new oldName newName) (hg : WellFormed g)
    (hj : j ∉ g.predecessors old) (hb' : g'.bare? j = some b') :
    ∃ b, g.bare? j = some b ∧ Remarked b b' := by
  rw [h.bare] at hb'
  split at hb'
  · cases hb'
  · obtain ⟨b, hb, rfl⟩ := Option.map_eq_some_iff.1 hb'
    have hmem : old ∉ b.terminator.targets := fun hold =>
      hj ((hg.edges j old).2 ⟨trivial, (hg.target_live hb hold).1⟩)
    refine ⟨b, hb, oldName, newName, ?_⟩
    rw [redirected, Terminator.retarget_of_not_mem hmem (hg.exits hb).sides]

/-- What is unused without the detour was unused with it, if no read is lost. -/
theorem unused (h : Elided g g' old new oldName newName) (hd : Detour g old new b)
    (hlost : LosesNoRead g g') (hc : g.bare? j = some c) (hb' : g'.bare? j = some b')
    (hsame : Remarked c b') (hx : Defines c.body x) (hunused : Unused g' j b' x) :
    Unused g j c x := by
  obtain ⟨o, n, rfl⟩ := hsame
  have hx' : Defines (c.body.map (retargetMarker o n)) x := defines_map_retargetMarker.2 hx
  obtain ⟨hread, honly, hplain⟩ := (unused_iff hb' hx').1 hunused
  refine (unused_iff hc hx).2 ⟨fun {i d} hd' hin => ?_, fun {i d} hd' hdefines => ?_,
    fun i hi hdefined => ?_⟩
  · have hlive : x ∈ g'.readVariables :=
      hlost x (mem_readVariables_bare.2 ⟨i, d, hd', hin⟩) (mem_writtenVariables.2 ⟨j, _, hb', hx'⟩)
    obtain ⟨i', d', hd', hin'⟩ := mem_readVariables_bare.1 hlive
    exact hread hd' hin'
  · have hi : i ≠ old := by
      rintro rfl
      obtain rfl := Option.some.inj (hd'.symm.trans hd.found)
      rw [hd.empty] at hdefines
      obtain ⟨k, hk, -⟩ := hdefines
      cases hk
    refine honly (c := redirected old new oldName newName d) ?_ ?_
    · rw [h.bare_of_ne hi, hd']
      rfl
    · exact defines_map_retargetMarker.2 hdefines
  · have hkept := hplain _ (List.mem_map_of_mem hi)
      (by rw [definedVariable_retargetMarker]; exact hdefined)
    rwa [isPlainDefinition_retargetMarker] at hkept

/-- A block apart from the detour and its target is entered as before, if no call is
lost. -/
theorem sameEntrances (h : Elided g g' old new b.name newName) (hd : Detour g old new b)
    (hg : Proper g) (hcall : LosesNoCall g old) (hold : j ≠ old) (hnew : j ≠ new) :
    SameEntrances g g' j := by
  have hrecord : ∀ {k info}, g.function? k = some info → ∃ info', g'.function? k = some info' ∧
      (info.entry = some j → info'.entry = some j) ∧
      ∀ call ∈ info.calls, call.returnTo = j → call ∈ info'.calls := by
    intro k info hk
    refine ⟨forgottenInfo old none (redirectedInfo old new info), ?_, fun hentry => ?_,
      fun call hmem hreturn => ?_⟩
    · rw [h.functions, hk]
      rfl
    · simp [forgottenInfo, redirectedInfo, hentry, hold]
    · refine List.mem_filter.2 ⟨List.mem_map.2 ⟨call, hmem, ?_⟩, ?_⟩
      · rw [redirectedCall, if_neg (hreturn ▸ hold)]
      · simp [hcall hk hmem, hreturn, hold]
  have hother : ∀ {i c}, i ≠ old → g.bare? i = some c →
      g'.bare? i = some (redirected old new b.name newName c) := by
    intro i c hi hc
    rw [h.bare_of_ne hi, hc]
    rfl
  constructor
  case first =>
    intro hfirst
    rw [h.first, hfirst, if_neg (by simpa using hold)]
  case entry =>
    intro k info hk hentry
    obtain ⟨info', hk', hentry', -⟩ := hrecord hk
    exact ⟨info', hk', hentry' hentry⟩
  case returns =>
    intro k info call hk hmem hreturn
    obtain ⟨info', hk', -, hcalls⟩ := hrecord hk
    exact ⟨info', call, hk', hcalls call hmem hreturn, hreturn⟩
  case edges =>
    intro i hi
    obtain ⟨c, hc, hedge⟩ := mem_successors.1 hi
    by_cases heq : i = old
    · subst heq
      obtain rfl := Option.some.inj (hc.symm.trans hd.found)
      rw [hd.jumps] at hedge
      exact absurd (List.mem_singleton.1 hedge) hnew
    · refine mem_successors.2 ⟨_, hother heq hc, ?_⟩
      simp only [redirected, Terminator.isReturn_retarget]
      split at hedge
      · rename_i hret
        obtain ⟨f, info, hf, hk, call, hmem, hreturn⟩ := hedge
        obtain ⟨info', hk', -, hcalls⟩ := hrecord hk
        rw [if_pos hret]
        exact ⟨f, info', hf, hk', call, hcalls call hmem hreturn, hreturn⟩
      · rename_i hret
        rw [if_neg hret]
        exact mem_targets_retarget_of_ne hedge hold
  case jumps =>
    intro i b' hb' hjump
    obtain ⟨hi, -⟩ := h.name_back hb'
    rw [h.bare_of_ne hi] at hb'
    obtain ⟨c, hc, rfl⟩ := Option.map_eq_some_iff.1 hb'
    exact ⟨c, hc, eq_jump_of_retarget (hg.wellFormed.exits hc) hjump hnew, rfl, rfl⟩
  case marks =>
    intro t i c ht hc hmark
    have hi : i ≠ old := by
      rintro rfl
      obtain rfl := Option.some.inj (hc.symm.trans hd.found)
      rw [hd.empty] at hmark
      cases hmark
    have hname : t.name ≠ b.name := fun heq => hold (hg.names _ _ _ _ ht hd.found heq)
    refine ⟨i, _, hother hi hc, List.mem_map.2 ⟨_, hmark, ?_⟩⟩
    rw [retargetMarker, if_neg hname]

/-- **Elision** spares the blocks that it does not report, if it loses no read and no
call. -/
theorem spares (h : Elided g g' old new b.name newName) (hd : Detour g old new b)
    (hg : Proper g) (hlive : g'.contains j = true)
    (hj : j ∉ (g.predecessors old ++ [new]).filter (· != old)) :
    Spares g g' j (LosesNoRead g g') (LosesNoCall g old) := by
  have hold : j ≠ old := by
    rintro rfl
    rw [contains_eq_isSome_bare?, h.bare, if_pos rfl] at hlive
    cases hlive
  have hmem : j ∉ g.predecessors old ∧ j ≠ new := by simpa [hold] using hj
  have hremarked : ∀ {b'}, g'.bare? j = some b' → ∃ c, g.bare? j = some c ∧ Remarked c b' :=
    h.remarked hg.wellFormed hmem.1
  refine ⟨hremarked, fun hlast => h.last.trans hlast, fun hlost c b' x hc hb' hx hunused => ?_,
    fun hcall => h.sameEntrances hd hg hcall hold hmem.2⟩
  obtain ⟨c', hc', hsame⟩ := hremarked hb'
  obtain rfl := Option.some.inj (hc.symm.trans hc')
  exact h.unused hd hlost hc hb' hsame hx hunused

end Elided

/-! ## A block that was appended to its predecessor -/

namespace Fused

theorem bare_of_ne (h : Fused g g' into gone b tail) (hgone : i ≠ gone) (hinto : i ≠ into) :
    g'.bare? i = g.bare? i := by
  rw [h.bare, if_neg (Ne.symm hgone), if_neg (Ne.symm hinto)]

theorem found (h : Fused g g' into gone b tail) (hf : Fusible g into gone b tail) :
    g'.bare? into = some (merged b tail).bare := by
  rw [h.bare, if_neg (Ne.symm hf.mergeable.distinct), if_pos rfl]

/-- What a block holds is found in the new graph, in the block itself or in the one that
was fused. -/
theorem exists_after (h : Fused g g' into gone b tail) (hf : Fusible g into gone b tail)
    (hc : g.bare? i = some c) : ∃ i' c', g'.bare? i' = some c' ∧ (∀ k ∈ c.body, k ∈ c'.body) ∧
      (∀ x ∈ readNamesOf c, x ∈ readNamesOf c') ∧ (i' = i ∨ i' = into) := by
  have hm := hf.mergeable
  by_cases hinto : i = into
  · subst hinto
    have hb : c = b.bare := by
      rw [bare?, hm.head] at hc
      exact (Option.some.inj hc).symm
    subst hb
    refine ⟨i, _, h.found hf, fun k hk => List.mem_append_left _ hk, fun x hx => ?_, .inl rfl⟩
    rw [mem_readNamesOf] at hx ⊢
    refine .inl ?_
    rcases hx with hx | hx
    · exact List.mem_flatMap.2 ((List.mem_flatMap.1 hx).imp fun k hk =>
        ⟨List.mem_append_left _ hk.1, hk.2⟩)
    · rw [show b.bare.terminator = .jump gone from hm.jumps] at hx
      cases hx
  · by_cases hgone : i = gone
    · subst hgone
      have htail : c = tail.bare := by
        rw [bare?, hm.found] at hc
        exact (Option.some.inj hc).symm
      subst htail
      refine ⟨into, _, h.found hf, fun k hk => List.mem_append_right _ hk, fun x hx => ?_,
        .inr rfl⟩
      rw [mem_readNamesOf] at hx ⊢
      refine hx.imp_left fun hx => ?_
      exact List.mem_flatMap.2 ((List.mem_flatMap.1 hx).imp fun k hk =>
        ⟨List.mem_append_right _ hk.1, hk.2⟩)
    · exact ⟨i, c, (h.bare_of_ne hgone hinto).trans hc, fun k hk => hk, fun x hx => hx, .inl rfl⟩

/-- What is unused after blocks were fused was unused before. -/
theorem unused (h : Fused g g' into gone b tail) (hf : Fusible g into gone b tail)
    (hgone : j ≠ gone) (hinto : j ≠ into) (hc : g.bare? j = some c) (hx : Defines c.body x)
    (hunused : Unused g' j c x) : Unused g j c x := by
  obtain ⟨hread, honly, hplain⟩ :=
    (unused_iff ((h.bare_of_ne hgone hinto).trans hc) hx).1 hunused
  refine (unused_iff hc hx).2 ⟨fun {i d} hd hin => ?_, fun {i d} hd hdefines => ?_, hplain⟩
  · obtain ⟨i', d', hd', -, hreads, -⟩ := h.exists_after hf hd
    exact hread hd' (hreads x hin)
  · obtain ⟨i', d', hd', hbody, -, hi'⟩ := h.exists_after hf hd
    obtain ⟨k, hk, hdefined⟩ := hdefines
    obtain rfl : i' = j := honly hd' ⟨k, hbody k hk, hdefined⟩
    exact (hi'.resolve_right hinto).symm

/-- A block apart from the two and the targets of the fused one is entered as before. -/
theorem sameEntrances (h : Fused g g' into gone b tail) (hf : Fusible g into gone b tail)
    (hgone : j ≠ gone) (hj : j ∉ g'.successors into) : SameEntrances g g' j := by
  have hm := hf.mergeable
  have hrecord : ∀ {k info}, g.function? k = some info → ∃ info', g'.function? k = some info' ∧
      info'.entry = info.entry ∧ ∀ call ∈ info.calls, ∃ call' ∈ info'.calls,
        call'.returnTo = call.returnTo := by
    intro k info hk
    refine ⟨handOver gone into info, by rw [h.functions, hk]; rfl, rfl, fun call hmem => ?_⟩
    refine ⟨_, List.mem_map_of_mem hmem, ?_⟩
    split <;> rfl
  -- an edge that leaves a block leaves it, or the block that it was appended to
  have hedges : ∀ {i i' c c'}, g.bare? i = some c → g'.bare? i' = some c' →
      c'.terminator = c.terminator → c'.function = c.function → j ∈ g.successors i →
      j ∈ g'.successors i' := by
    intro i i' c c' hc hc' hterm hfunction hi
    obtain ⟨d, hd, hedge⟩ := mem_successors.1 hi
    obtain rfl := Option.some.inj (hc.symm.trans hd)
    refine mem_successors.2 ⟨c', hc', ?_⟩
    rw [hterm, hfunction]
    split at hedge
    · rename_i hret
      obtain ⟨f, info, hfun, hk, call, hmem, hreturn⟩ := hedge
      obtain ⟨info', hk', -, hcalls⟩ := hrecord hk
      obtain ⟨call', hmem', hsame⟩ := hcalls call hmem
      rw [if_pos hret]
      exact ⟨f, info', hfun, hk', call', hmem', hsame.trans hreturn⟩
    · rename_i hret
      rw [if_neg hret]
      exact hedge
  have hhead : g.bare? into = some b.bare := bare?_of_block? hm.head
  have htail : g.bare? gone = some tail.bare := bare?_of_block? hm.found
  constructor
  case first => exact fun hfirst => h.first.trans hfirst
  case entry =>
    intro k info hk hentry
    obtain ⟨info', hk', hsame, -⟩ := hrecord hk
    exact ⟨info', hk', hsame.trans hentry⟩
  case returns =>
    intro k info call hk hmem hreturn
    obtain ⟨info', hk', -, hcalls⟩ := hrecord hk
    obtain ⟨call', hmem', hsame⟩ := hcalls call hmem
    exact ⟨info', call', hk', hmem', hsame.trans hreturn⟩
  case edges =>
    intro i hi
    obtain ⟨c, hc, hedge⟩ := mem_successors.1 hi
    by_cases hinto : i = into
    · subst hinto
      obtain rfl := Option.some.inj (hc.symm.trans hhead)
      rw [show b.bare.terminator = .jump gone from hm.jumps] at hedge
      exact absurd (List.mem_singleton.1 hedge) hgone
    · by_cases heq : i = gone
      · subst heq
        exact absurd (hedges htail (h.found hf) rfl hm.routine hi) hj
      · exact hedges hc ((h.bare_of_ne heq hinto).trans hc) rfl rfl hi
  case jumps =>
    intro i d hd hjump
    obtain ⟨hi, -⟩ := h.name_back hf hd
    by_cases hinto : i = into
    · subst hinto
      refine absurd (mem_successors.2 ⟨d, hd, ?_⟩) hj
      rw [hjump]
      exact List.mem_singleton_self j
    · exact ⟨d, (h.bare_of_ne hi hinto).symm.trans hd, hjump, rfl, rfl⟩
  case marks =>
    intro t i c _ hc hmark
    obtain ⟨i', c', hc', hbody, -⟩ := h.exists_after hf hc
    exact ⟨i', c', hc', hbody _ hmark⟩

/-- **Fusion** spares the blocks that it does not report. -/
theorem spares (h : Fused g g' into gone b tail) (hf : Fusible g into gone b tail)
    (hlive : g'.contains j = true) (hj : j ∉ into :: g'.successors into) :
    Spares g g' j True True := by
  obtain ⟨hinto, hsuccessor⟩ : j ≠ into ∧ j ∉ g'.successors into := by simpa using hj
  have hgone : j ≠ gone := by
    rintro rfl
    rw [contains_eq_isSome_bare?, h.bare, if_pos rfl] at hlive
    cases hlive
  have hbare : g'.bare? j = g.bare? j := h.bare_of_ne hgone hinto
  refine ⟨fun {c} hc => ⟨c, hbare.symm.trans hc, .refl c⟩, fun hlast => ?_,
    fun _ c c' x hc hc' hx hunused => ?_, fun _ => h.sameEntrances hf hgone hsuccessor⟩
  · rw [h.last, hlast, if_neg (by simpa using hgone)]
  · obtain rfl := Option.some.inj (hc'.symm.trans (hbare.trans hc))
    exact h.unused hf hgone hinto hc hx hunused

end Fused

/-! ## What is reported is enough -/

/-- **A pass reports every block at which it gives some pass something to do**, but for
the reads and calls that are lost when a detour is taken out. -/
theorem Progress.atRest {p : Pass} (h : Progress g id changed g' p) (hg : Proper g)
    (hlisted : ListedOnce g) (hg' : Proper g') (hlive : g'.contains j = true)
    (hj : j ∉ changed) {q : Pass}
    (hread : p = .emptyBlocks → q = .constants true → LosesNoRead g g')
    (hcall : p = .emptyBlocks → q = .fusion → LosesNoCall g id) (hrest : q.AtRest g j) :
    q.AtRest g' j := by
  cases h with
  | constants hb h ht =>
      exact (ht.spares hb h hj).atRest hg.wellFormed hlisted hg'.wellFormed
        (fun _ => trivial) (fun _ => trivial) hrest
  | emptyBlocks hd hnew h hchanged =>
      subst hchanged
      exact (h.spares hd hg hlive hj).atRest hg.wellFormed hlisted hg'.wellFormed
        (hread rfl) (hcall rfl) hrest
  | fusion hf h hchanged =>
      subst hchanged
      exact (h.spares hf hlive hj).atRest hg.wellFormed hlisted hg'.wellFormed
        (fun _ => trivial) (fun _ => trivial) hrest

end Simplify
end FlowVerifier
