import FlowVerifier.Proofs.Symbolic.Coverage

/-!
# Programs that go forward

A *place* is a block with the block that its routine returns to, and a path keeps one record for
each place.  A program goes forward if there is a rank of places that every step raises.  Then a
path comes to no place twice, and no path is cut because it shows nothing new.

* `Ahead` is what the steps of a path keep: it returns to where markers name, and all that it has
  on record is of a lower rank.
* `Prospect.cutSoundly_of_forward`: so no cut of a search is unsound, if the program goes forward.
* `keeps_runs_of_forward`: so dead code elimination leaves all code of such a program that runs.
* `FlowGraph.forward_of_order`: a program goes forward if its blocks are in order.
-/

namespace FlowVerifier

/-- A block with the block that its routine returns to. -/
abbrev Place := BlockId × Option BlockId

namespace FlowGraph

variable {g : FlowGraph}

/-- Some marker of the program names the block. -/
def IsSite (g : FlowGraph) (site : BlockId) : Prop :=
  ∃ id b, g.block? id = some b ∧ ∃ name, .pushState name ∈ b.body ∧ g.idOf? name = some site

/-- Every step of the program leads to a place of a higher rank. -/
def Forward {α : Type} [Preorder α] (g : FlowGraph) (rank : Place → α) : Prop :=
  ∀ id b sites target sites', g.block? id = some b → (∀ site ∈ sites, g.IsSite site) →
    b.terminator.LeadsTo (b.sites g.idOf? sites) target sites' →
    rank (id, sites.head?) < rank (target, sites'.head?)

/-- A part of a block adds only sites of the program. -/
theorem isSite_of_mem_foldl {id : BlockId} {b : Block} (hb : g.block? id = some b)
    {body : List Instruction} (hbody : body ⊆ b.body) {sites : List BlockId}
    (hsites : ∀ site ∈ sites, g.IsSite site) :
    ∀ site ∈ body.foldl (Instruction.sites g.idOf?) sites, g.IsSite site := by
  induction body generalizing sites with
  | nil => exact hsites
  | cons i rest ih =>
      obtain ⟨hi, hrest⟩ := List.cons_subset.1 hbody
      refine ih hrest ?_
      cases i with
      | pushState name =>
          intro site hsite
          rcases List.mem_append.1 hsite with hnew | hold
          · exact ⟨id, b, hb, name, hi, Option.mem_toList.1 hnew⟩
          · exact hsites site hold
      | _ => exact hsites

/-- So does the whole block. -/
theorem isSite_of_mem_sites {id : BlockId} {b : Block} (hb : g.block? id = some b)
    {sites : List BlockId} (hsites : ∀ site ∈ sites, g.IsSite site) :
    ∀ site ∈ b.sites g.idOf? sites, g.IsSite site :=
  isSite_of_mem_foldl hb (List.Subset.refl _) hsites

/-- **Blocks in order.**  A program goes forward if every edge leads to a later block, and every
block that returns comes before all that markers name. -/
theorem forward_of_order
    (hedges : ∀ id b, g.block? id = some b → ∀ target ∈ b.terminator.targets, id < target)
    (hreturns : ∀ id b, g.block? id = some b → b.terminator.isReturn = true →
      ∀ site, g.IsSite site → id < site) : g.Forward Prod.fst := by
  rintro id b sites target sites' hb hsites (⟨htarget, -⟩ | ⟨hreturn, hinner⟩)
  · exact hedges id b hb target htarget
  · refine hreturns id b hb hreturn target (isSite_of_mem_sites hb hsites target ?_)
    rw [hinner]
    exact List.mem_cons_self

end FlowGraph

open Run

namespace Symbolic

variable {α : Type} [Preorder α] {g : FlowGraph} {limits : SearchSettings} {p q : Prospect}
  {rank : Place → α}

/-- The place that a path comes to next. -/
def Prospect.place (p : Prospect) : Place := (p.block, p.path.stack.topMarker?)

/-- **A new place** is entered, and goes on record. -/
theorem Prospect.enter_new (h : p.path.visits.get? p.place = none) (maxWidenings : Nat) :
    ∃ entered made, p.path.enter p.block maxWidenings = (.first, entered) ∧
      entered.stack = p.path.stack ∧
      entered.visits = p.path.visits.insert p.place made := by
  rw [place] at h
  unfold Path.enter
  simp only [h]
  exact ⟨_, _, rfl, rfl, rfl⟩

/-- No path is cut at a new place. -/
theorem Prospect.cutSoundly_of_new (h : p.path.visits.get? p.place = none) :
    p.CutSoundly limits := by
  obtain ⟨entered, made, henter, -, -⟩ := p.enter_new h limits.maxWidenings
  constructor <;> rw [henter]
  · exact fun hskip => by cases hskip
  · exact fun hsub => by cases hsub

/-- The path returns to where markers name, and all that it has on record is of a lower rank than
the place it comes to. -/
structure Ahead (g : FlowGraph) (rank : Place → α) (p : Prospect) : Prop where
  sites : ∀ site ∈ p.path.stack.sites, g.IsSite site
  lower : ∀ place record, p.path.visits.get? place = some record → rank place < rank p.place

theorem Ahead.new (h : Ahead g rank p) : p.path.visits.get? p.place = none := by
  cases hget : p.path.visits.get? p.place with
  | none => rfl
  | some record => exact absurd (h.lower _ record hget) (lt_irrefl _)

/-- **One step** of a program that goes forward. -/
theorem Ahead.onward (hg : g.Forward rank) (h : Ahead g rank p) (hq : q ∈ onward g limits p) :
    Ahead g rank q := by
  obtain ⟨entered, made, henter, hstack, hvisits⟩ := p.enter_new h.new limits.maxWidenings
  obtain ⟨b, hthrough⟩ := goesThrough_of_onward hq henter
  have hleads := hthrough.leadsTo hq
  rw [hstack] at hleads
  have hsites := FlowGraph.isSite_of_mem_sites hthrough.block h.sites
  have hrank : rank p.place < rank q.place := by
    rw [Prospect.place, Prospect.place, Stack.topMarker?_eq, Stack.topMarker?_eq]
    exact hg _ b _ _ _ hthrough.block h.sites hleads
  refine ⟨fun site hsite => ?_, fun place record hget => ?_⟩
  · rcases hleads with ⟨-, hsame⟩ | ⟨-, hinner⟩
    · exact hsites site (hsame ▸ hsite)
    · exact hsites site (hinner ▸ List.mem_cons_of_mem _ hsite)
  · -- a record is that of the step, or was there before
    rw [(continues_onward hq).1.visits, henter, hvisits, Table.get?_insert] at hget
    split at hget
    · rename_i hplace
      exact hplace ▸ hrank
    · exact (h.lower place record hget).trans hrank

/-- The ways of a path, as far as one of them. -/
theorem Connected.exists_before {path : List Prospect} (h : Connected g limits path)
    (hp : p ∈ path) : ∃ before, Connected g limits (p :: before) := by
  obtain ⟨hchain, origin, horigin, hlast⟩ := h
  obtain ⟨after, before, rfl⟩ := List.append_of_mem hp
  refine ⟨before, (List.isChain_append.1 hchain).2.1, origin, horigin, ?_⟩
  rwa [List.getLast?_append_of_ne_nil _ (List.cons_ne_nil _ _)] at hlast

/-- **A whole path** of a program that goes forward. -/
theorem Connected.ahead (hg : g.Forward rank) {before : List Prospect}
    (h : Connected g limits (p :: before)) : Ahead g rank p := by
  induction before generalizing p with
  | nil =>
      obtain ⟨-, origin, horigin, hlast⟩ := h
      obtain rfl : p = origin := by simpa using hlast
      obtain ⟨first, -, rfl⟩ := List.mem_map.1 horigin
      exact ⟨fun site hsite => absurd hsite List.not_mem_nil,
        fun place record hget => absurd hget (by simp [Path.start])⟩
  | cons q before ih =>
      obtain ⟨hchain, horigin⟩ := h
      exact (ih ⟨hchain.tail, by simpa using horigin⟩).onward hg (List.isChain_cons_cons.1 hchain).1

/-- **Programs that go forward** are searched without an unsound cut. -/
theorem Prospect.cutSoundly_of_forward (hg : g.Forward rank)
    (hp : p ∈ (Survey.whole g limits).followed) : p.CutSoundly limits := by
  obtain ⟨hfaithful, hdone⟩ := Survey.whole_faithful g limits
  rcases hfaithful.covered p hp with ⟨path, hpath, hmem⟩ | ⟨t, ht, -⟩
  · obtain ⟨before, hbefore⟩ := (hfaithful.connected.1 path hpath).exists_before hmem
    exact cutSoundly_of_new (hbefore.ahead hg).new
  · rw [hdone] at ht
    cases ht

/-! ## What is kept of such programs -/

section Kept

variable {env : Environment} {n : Nat} {s : Run.State} {b : Block} {id : BlockId}
  {log log' : Log} {summary : SearchSummary} {length : Nat}

/-- **Code that runs is kept** of a program that goes forward, whatever its search cuts. -/
theorem keeps_runs_of_forward (hg : g.Forward rank) (hvalid : g.validate = .ok ())
    (henv : env.Typed) (hlength : ∀ id b, g.block? id = some b → b.body.length < length)
    (hroom : limits.maxDepth * length < 2 ^ 64)
    (hsearch : searchFrom g limits log = (.ok summary, log')) (ht : summary.truncated = false)
    (hordered : RunsOrdered env g n) (hat : after env g n = .at id s)
    (hb : g.block? id = some b) (hpopulated : b.populated = true) :
    ((eliminateDeadCode summary).runOn { graph := g, log := log' }).2.graph.contains id = true := by
  have hcuts : ∀ p ∈ (Survey.whole g limits).followed, p.CutSoundly limits :=
    fun p => Prospect.cutSoundly_of_forward hg
  have hreached := isReached_of_run henv hlength hroom hsearch ht hcuts hordered hat hb hpopulated
  exact Needed.stays (FlowGraph.validate_iff.1 hvalid)
    (.entered (FlowGraph.contains_iff.2 ⟨b, hb⟩) hreached) log'

/-- So it is of a program whose blocks are in order. -/
theorem keeps_runs_of_order
    (hedges : ∀ id b, g.block? id = some b → ∀ target ∈ b.terminator.targets, id < target)
    (hreturns : ∀ id b, g.block? id = some b → b.terminator.isReturn = true →
      ∀ site, g.IsSite site → id < site)
    (hvalid : g.validate = .ok ()) (henv : env.Typed)
    (hlength : ∀ id b, g.block? id = some b → b.body.length < length)
    (hroom : limits.maxDepth * length < 2 ^ 64)
    (hsearch : searchFrom g limits log = (.ok summary, log')) (ht : summary.truncated = false)
    (hordered : RunsOrdered env g n) (hat : after env g n = .at id s)
    (hb : g.block? id = some b) (hpopulated : b.populated = true) :
    ((eliminateDeadCode summary).runOn { graph := g, log := log' }).2.graph.contains id = true :=
  keeps_runs_of_forward (FlowGraph.forward_of_order hedges hreturns) hvalid henv hlength hroom
    hsearch ht hordered hat hb hpopulated

end Kept

end Symbolic
end FlowVerifier
