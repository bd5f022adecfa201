import FlowVerifier.Proofs.Flow.Removal
import FlowVerifier.Proofs.Simplify.Soundness
import FlowVerifier.Simplify.EmptyBlocks

/-!
# Taking detours out

When an empty block is elided, its target stands for it wherever control goes and on
every marker.  A run of the original program that comes to the empty block makes one
step more; apart from that the two runs go side by side.  A branch between the empty
block and its target becomes a jump, so that its test is no longer made: this is the
one place where a run that failed may go on.
-/

namespace FlowVerifier
namespace Simplify

open FlowGraph Run

variable {lax : Prop} {g g' : FlowGraph} {old new : BlockId} {oldName newName : String}

/-- A detour: an empty block that jumps to another one. -/
structure Detour (g : FlowGraph) (old new : BlockId) (b : Block) : Prop where
  found : g.bare? old = some b
  populated : b.populated = true
  empty : b.body = []
  jumps : b.terminator = .jump new
  distinct : new ≠ old
  notLast : g.last ≠ some old

theorem detour_of_detourTarget? (h : detourTarget? g old = some new) :
    ∃ b, Detour g old new b := by
  unfold detourTarget? at h
  split at h
  · exact nomatch h
  · rename_i b hb
    split at h
    · exact nomatch h
    · rename_i hcond
      simp only [Bool.or_eq_true, Bool.not_eq_true', beq_iff_eq, not_or, Bool.not_eq_false] at hcond
      obtain ⟨⟨hpop, hempty⟩, hlast⟩ := hcond
      split at h
      · rename_i target hjump
        split at h
        · exact nomatch h
        · rename_i hne
          cases h
          refine ⟨b.bare, ?_, hpop, by simpa [Block.bare, Block.isEmpty] using hempty, hjump, hne,
            hlast⟩
          rw [bare?, hb]
          rfl
      · exact nomatch h

/-- The block that stands for a block after `old` was elided. -/
def standIn (old new id : BlockId) : BlockId := if id = old then new else id

/-- The second block stands for the first. -/
def LedTo (old new i j : BlockId) : Prop := standIn old new i = j

theorem standIn_of_ne {id : BlockId} (h : id ≠ old) : standIn old new id = id := if_neg h

/-- The graph without the detour. -/
structure Elided (g g' : FlowGraph) (old new : BlockId) (oldName newName : String) : Prop where
  bare : ∀ id, g'.bare? id = if old = id then none
    else (g.bare? id).map (redirected old new oldName newName)
  first : g'.first = if g.first = some old then some new else g.first
  last : g'.last = g.last
  functions : ∀ k, g'.function? k =
    ((g.function? k).map (redirectedInfo old new)).map (forgottenInfo old none)

/-- Terminators lead to the blocks that stand in. -/
theorem exitAlike_retarget {X : String → Prop} (hlax : lax) (hX : ∀ x, ¬ X x) (e : Terminator)
    (old new : BlockId) :
    ExitAlike lax X (LedTo old new) e (e.retarget old new) := by
  cases e with
  | finish => exact .finish
  | ret value => exact .ret fun x _ => hX x
  | jump target => exact .jump rfl
  | branch test onTrue onFalse =>
      show ExitAlike lax X _ _
        (Terminator.branch test (standIn old new onTrue) (standIn old new onFalse)).normalize
      rw [Terminator.normalize]
      split
      · rename_i heq
        exact .joined hlax rfl heq.symm
      · exact .branch (fun x _ => hX x) rfl rfl

namespace Elided

variable {bo bn : Block}

theorem bare_of_ne (h : Elided g g' old new oldName newName) {id : BlockId} (hne : id ≠ old) :
    g'.bare? id = (g.bare? id).map (redirected old new oldName newName) := by
  rw [h.bare, if_neg (Ne.symm hne)]

/-- A block of the new graph has the name it had. -/
theorem name_back (h : Elided g g' old new oldName newName) {id : BlockId} {b' : Block}
    (hb' : g'.bare? id = some b') : id ≠ old ∧ ∃ b, g.bare? id = some b ∧ b.name = b'.name := by
  rw [h.bare] at hb'
  split at hb'
  · exact nomatch hb'
  · rename_i hne
    obtain ⟨b, hb, rfl⟩ := Option.map_eq_some_iff.1 hb'
    exact ⟨Ne.symm hne, b, hb, rfl⟩

theorem uniqueNames (h : Elided g g' old new oldName newName) (hg : UniqueNames g) :
    UniqueNames g' :=
  hg.congr fun _ _ hb' => (h.name_back hb').2

/-- Markers name the blocks that stand in. -/
theorem namesAlike (h : Elided g g' old new bo.name bn.name) (hg : UniqueNames g)
    (hne : new ≠ old) (hold : g.bare? old = some bo) (hnew : g.bare? new = some bn)
    (name : String) :
    NamesAlike (LedTo old new) (g.idOf? name)
      (g'.idOf? (if name = bo.name then bn.name else name)) := by
  have hg' := h.uniqueNames hg
  split
  · rename_i heq
    subst heq
    refine .inr ⟨old, new, (idOf?_eq_some_iff hg).2 ⟨bo, hold, rfl⟩, ?_, if_pos rfl⟩
    refine (idOf?_eq_some_iff hg').2 ⟨redirected old new bo.name bn.name bn, ?_, rfl⟩
    rw [h.bare_of_ne hne, hnew]
    rfl
  · rename_i hname
    cases hid : g.idOf? name with
    | none =>
        refine .inl ⟨rfl, idOf?_eq_none_iff.2 fun id b' hb' heq => ?_⟩
        obtain ⟨_, b, hb, hsame⟩ := h.name_back hb'
        exact idOf?_eq_none_iff.1 hid id b hb (hsame.trans heq)
    | some id =>
        obtain ⟨b, hb, rfl⟩ := name_of_idOf? hid
        have hid' : id ≠ old := by
          rintro rfl
          rw [hold, Option.some.injEq] at hb
          exact hname (by rw [hb])
        refine .inr ⟨id, id, rfl, ?_, standIn_of_ne hid'⟩
        refine (idOf?_eq_some_iff hg').2 ⟨redirected old new bo.name bn.name b, ?_, rfl⟩
        rw [h.bare_of_ne hid', hb]
        rfl

theorem blockAlike (hlax : lax) (h : Elided g g' old new bo.name bn.name) (hg : UniqueNames g)
    (hne : new ≠ old) (hold : g.bare? old = some bo) (hnew : g.bare? new = some bn)
    (b : Block) :
    BlockAlike lax (fun _ => False) (LedTo old new) g.idOf? g'.idOf? b
      (redirected old new bo.name bn.name b) := by
  refine ⟨rfl, ?_, exitAlike_retarget hlax (fun _ => id) b.terminator old new⟩
  show BodyAlike _ _ _ _ b.body (b.body.map (retargetMarker bo.name bn.name))
  induction b.body with
  | nil => exact .nil
  | cons i rest ih =>
      refine .cons ?_ ih
      cases i with
      | pushState name =>
          rcases h.namesAlike hg hne hold hnew name with ⟨hn, hn'⟩ | ⟨a, c, hn, hn', hM⟩
          · exact .unknown hn hn'
          · exact .known hn hn' hM
      | _ => exact .same nofun fun x _ => id

/-- **A program without a detour** runs like the one with it, unless that fails at a
test. -/
theorem preserves (hlax : lax) (h : Elided g g' old new bo.name bn.name) {env : Environment}
    (hfree : env.checked = false) (hg : UniqueNames g) (hd : Detour g old new bo)
    (hnew : g.bare? new = some bn) : Preserves lax env g g' := by
  have hstep : ∀ {i s t}, i ≠ old → Alike (fun _ => False) (LedTo old new) s t →
      Continues lax (fun _ => False) (LedTo old new) (step env g (.at i s))
        (step env g' (.at i t)) :=
    fun hi hst => hst.step hfree (h.bare_of_ne hi)
      fun b _ => h.blockAlike hlax hg hd.distinct hd.found hnew b
  refine (simulation_of_alike (X := fun _ => False) (M := LedTo old new) ?_ ?_).preserves
  · refine start_alike (fun hf => ?_) fun i hi => ⟨standIn old new i, ?_, rfl⟩
    · rw [h.first, hf]
      rfl
    · rw [h.first, hi]
      by_cases heq : i = old <;> simp [standIn, heq]
  · rintro i j s t rfl hst
    by_cases hi : i = old
    · -- the detour costs the original program one step
      subst hi
      have hdetour : step env g (.at i s) = .at new s := by
        rw [step_at hd.found]
        simp only [runBlock, hd.populated, hd.empty, hd.jumps, if_true]
        rfl
      refine ⟨1, ?_⟩
      show Continues lax _ _ (step env g (step env g (.at i s))) _
      rw [hdetour, standIn, if_pos rfl]
      exact hstep hd.distinct hst
    · refine ⟨0, ?_⟩
      rw [standIn_of_ne hi]
      exact hstep hi hst

end Elided

/-- What the pass does to a detour. -/
theorem exists_elided {id target : BlockId} (hg : WellFormed g)
    (htarget : detourTarget? g id = some target) :
    ∃ b bn g₁ g₂, Detour g id target b ∧ g.bare? target = some bn ∧
      outcome (redirect id target) g = (.ok (), g₁) ∧
      outcome (removeNode id) g₁ = (.ok (), g₂) ∧ WellFormed g₂ ∧
      Elided g g₂ id target b.name bn.name := by
  obtain ⟨_, hd⟩ := detour_of_detourTarget? htarget
  obtain ⟨b, hb, rfl⟩ := Option.map_eq_some_iff.1 hd.found
  have hlive : g.contains target = true := by
    refine (hg.target_live hd.found ?_).2
    simp [hd.jumps, Terminator.targets]
  obtain ⟨bn, hbn⟩ := contains_iff.1 hlive
  have hnew : g.bare? target = some bn.bare := bare?_of_block? hbn
  obtain ⟨g₁, hredirect, hwf₁, hunref, hbare₁, hfirst₁, hlast₁, hfun₁⟩ :=
    outcome_redirect hg hd.distinct hb hbn
  obtain ⟨b₁, hb₁, hsame⟩ : ∃ b₁, g₁.block? id = some b₁ ∧
      b₁.bare = redirected id target b.name bn.name b.bare :=
    Option.map_eq_some_iff.1 ((hbare₁ id).trans (by rw [hd.found]; rfl))
  have hplain : b₁.terminator.isReturn = false := by
    have hterm : b₁.terminator = b.bare.terminator.retarget id target :=
      congrArg Block.terminator hsame
    rw [hterm, Terminator.isReturn_retarget, hd.jumps]
    rfl
  obtain ⟨g₂, hremove, hwf₂, hbare₂, hfirst₂, hlast₂, hfun₂⟩ :=
    outcome_removeNode hwf₁ hunref hb₁ hplain (by rw [hlast₁]; exact hd.notLast)
  refine ⟨b.bare, bn.bare, g₁, g₂, hd, hnew, hredirect, hremove, hwf₂, fun j => ?_,
    hfirst₂.trans hfirst₁, hlast₂.trans hlast₁, fun k => by rw [hfun₂, hfun₁]⟩
  rw [hbare₂, hbare₁]
  rfl

/-- **Eliding an empty block** is sound. -/
theorem sound_elideEmptyBlock (hlax : lax) (id : BlockId) : Sound lax (elideEmptyBlock id) := by
  intro w hw
  refine SoundOn.graph_bind ?_
  cases htarget : detourTarget? w.graph id with
  | none => exact Sound.pure [] w hw
  | some target =>
      obtain ⟨b, bn, g₁, g₂, hd, hnew, hredirect, hremove, hwf₂, helided⟩ :=
        exists_elided hw.wellFormed htarget
      have hstands : StandsIn lax w.graph g₂ :=
        ⟨⟨hwf₂, helided.uniqueNames hw.names⟩,
          fun _ hfree => helided.preserves hlax hfree hw.names hd hnew⟩
      refine .after (v := { w with graph := g₂ }) ((outcome_bind_ok (outcome_edit hredirect)).trans
        (outcome_bind_ok (outcome_edit (w := { w with graph := g₁ }) hremove))) hstands ?_
      exact ((Silent.record _).bind fun _ => .pure _).sound _ hstands.proper

end Simplify
end FlowVerifier
