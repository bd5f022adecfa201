import FlowVerifier.Proofs.Flow.Results
import FlowVerifier.Proofs.Reports
import FlowVerifier.Proofs.Symbolic.Lockstep

/-!
# Searches side by side

The search of one graph follows the search of another step by step, or stays where it is
for a step (`explore_simulates`).  In the end both have found mistakes, or neither has.

* `proceed_cases` and `visit_cases` say what a step of a search can do that no limit cuts
  short.
* `Explored` are the states that a search comes through, and `EnteredOnce` says of a block
  that no path comes back to it.
* `proceed_alike`: alike paths enter blocks alike, and leave them alike.
* `searchedAlike_of_blocks`: it is enough that each block does the same to alike paths
  (`BlocksAlike`).
-/

namespace FlowVerifier
namespace Symbolic

open Exec

variable {g g' : FlowGraph} {limits : SearchSettings} {b b' : Block} {id : BlockId}
  {f f₁ f' f₁' : Findings} {p q : Path} {a a' : Prospect}
  {others others' next : Frontier Prospect} {sides : List Side} {slack : Slack}

/-! ## What a search keeps -/

namespace Findings

/-- Did a path enter the block so far? -/
def isReached (f : Findings) (id : BlockId) : Bool := (f.results.get? id).any (0 < ·.visits)

theorem isReached_enter (f : Findings) (id : BlockId) (p : Path) (other : BlockId) :
    (f.enter id p).isReached other = (f.isReached other || decide (id = other)) := by
  simp only [isReached, enter, Table.get?_insert]
  by_cases h : id = other
  · subst h
    cases f.results.get? id <;> simp
  · simp [h]

/-- The second findings know of all that the first know of. -/
structure Grows (f f' : Findings) : Prop where
  reached : ∀ id, f.isReached id = true → f'.isReached id = true
  truncated : f.truncated = true → f'.truncated = true

theorem Grows.refl (f : Findings) : f.Grows f := ⟨fun _ h => h, id⟩

theorem Grows.trans {f f' f'' : Findings} (h : f.Grows f') (h' : f'.Grows f'') : f.Grows f'' :=
  ⟨fun id hid => h'.reached id (h.reached id hid), fun ht => h'.truncated (h.truncated ht)⟩

/-- A search that was not cut short in the end was not cut short before. -/
theorem Grows.complete (h : f.Grows f₁) (ht : f₁.truncated = false) : f.truncated = false := by
  cases hf : f.truncated with
  | false => rfl
  | true => exact absurd (h.truncated hf) (by simp [ht])

theorem grows_enter (f : Findings) (id : BlockId) (p : Path) : f.Grows (f.enter id p) :=
  ⟨fun other h => by rw [isReached_enter, h, Bool.true_or], fun h => h⟩

theorem grows_truncate (f : Findings) (b : Block) (limit : Limit) : f.Grows (f.truncate b limit) :=
  ⟨fun _ h => h, fun _ => rfl⟩

/-- What happened in a block changes the log only. -/
theorem conclude_results (f : Findings) (b : Block) (r : Except Error (List Side) × Trace) :
    (f.conclude b r).2.results = f.results ∧ (f.conclude b r).2.truncated = f.truncated := by
  unfold conclude
  dsimp only
  split <;> exact ⟨rfl, rfl⟩

end Findings

theorem grows_visit (g : FlowGraph) (limits : SearchSettings) (b : Block) (id : BlockId)
    (p : Path) (f : Findings) :
    f.Grows (visit g limits b id p f).2 ∧
      (b.populated = true → (visit g limits b id p f).2.isReached id = true) := by
  have henter : (f.enter id p).isReached id = true := by
    rw [Findings.isReached_enter]
    simp
  unfold visit
  split
  · have hconclude : ∀ r, f.Grows ((f.enter id p).conclude b r).2 ∧
        ((f.enter id p).conclude b r).2.isReached id = true := by
      intro r
      obtain ⟨hresults, htruncated⟩ := (f.enter id p).conclude_results b r
      have hsame : ∀ other, ((f.enter id p).conclude b r).2.isReached other =
          (f.enter id p).isReached other := by
        intro other
        simp only [Findings.isReached, hresults]
      refine ⟨(f.grows_enter id p).trans ⟨fun other h => by rw [hsame, h], fun h => ?_⟩, ?_⟩
      · rw [htruncated, h]
      · rw [hsame, henter]
    dsimp only
    split
    · exact ⟨f.grows_enter id p, fun _ => henter⟩
    · exact ⟨(f.grows_enter id p).trans (Findings.grows_truncate _ b _), fun _ => henter⟩
    · exact ⟨(hconclude _).1, fun _ => (hconclude _).2⟩
    · exact ⟨(hconclude _).1, fun _ => (hconclude _).2⟩
  · rename_i hp
    exact ⟨⟨fun _ h => h, fun h => h⟩, fun h => absurd h hp⟩

theorem grows_proceed (g : FlowGraph) (limits : SearchSettings) (p : Prospect)
    (others : Frontier Prospect) (f : Findings) :
    f.Grows (proceed g limits p others f).2 := by
  unfold proceed
  cases g.block? p.block with
  | none => exact .refl f
  | some b =>
      cases p.left with
      | zero =>
          dsimp only
          unfold stopBefore
          split
          · exact f.grows_truncate b _
          · exact ⟨fun _ h => h, id⟩
      | succ left =>
          have hvisit := (grows_visit g limits b p.block p.path f).1
          rcases hv : visit g limits b p.block p.path f with ⟨r, f'⟩
          rw [hv] at hvisit
          cases r with
          | error e => simpa only [hv] using hvisit
          | ok sides =>
              simp only [hv]
              split
              · exact hvisit.trans (f'.grows_truncate b _)
              · exact hvisit

/-- A search forgets nothing. -/
theorem grows_explore (g : FlowGraph) (limits : SearchSettings) (frontier : Frontier Prospect)
    (f : Findings) : f.Grows (explore g limits frontier f).2 := by
  induction frontier, f using explore_induction g limits with
  | nil frontier f hp =>
      rw [explore_nil hp]
      exact .refl f
  | step frontier f p rest hp ih =>
      rw [explore_proceed hp]
      have hgrows := grows_proceed g limits p { frontier with pending := rest } f
      rcases hstep : proceed g limits p { frontier with pending := rest } f with ⟨r, f'⟩
      rw [hstep] at hgrows
      cases r with
      | error e => exact hgrows
      | ok next => exact hgrows.trans (ih next f' hstep)

/-! ## What a step can do -/

/-- Does a path that enters a block go through it? -/
def Revisit.runs : Revisit → Bool
  | .first => true
  | .widened => true
  | .unwound => true
  | _ => false

theorem visit_runs (hp : b.populated = true)
    (hr : (p.enter id limits.maxWidenings).1.runs = true) :
    visit g limits b id p f =
      (f.enter id p).conclude b ((runBlock g b).runOn (p.enter id limits.maxWidenings).2) := by
  unfold visit
  rw [if_pos hp]
  rcases hpe : p.enter id limits.maxWidenings with ⟨verdict, p'⟩
  rw [hpe] at hr
  cases verdict with
  | subsumed => exact absurd hr (by simp [Revisit.runs])
  | exhausted => exact absurd hr (by simp [Revisit.runs])
  | recursion => exact absurd hr (by simp [Revisit.runs])
  | _ => rfl

/-- **What a path does** that enters a block and is not cut short. -/
theorem visit_cases (hp : b.populated = true) (hv : visit g limits b id p f = (.ok sides, f₁))
    (ht : f₁.truncated = false) :
    ((p.enter id limits.maxWidenings).1 = .subsumed ∧ sides = [] ∧ f₁ = f.enter id p) ∨
    ((p.enter id limits.maxWidenings).1 = .recursion ∧ (f.enter id p).conclude b
      ((skipCall g b).runOn (p.enter id limits.maxWidenings).2) = (.ok sides, f₁)) ∨
    ((p.enter id limits.maxWidenings).1.runs = true ∧ (f.enter id p).conclude b
      ((runBlock g b).runOn (p.enter id limits.maxWidenings).2) = (.ok sides, f₁)) := by
  unfold visit at hv
  rw [if_pos hp] at hv
  rcases hpe : p.enter id limits.maxWidenings with ⟨verdict, p'⟩
  rw [hpe] at hv
  cases verdict with
  | subsumed =>
      obtain ⟨hsides, rfl⟩ := Prod.mk.inj hv
      exact .inl ⟨rfl, (Except.ok.inj hsides).symm, rfl⟩
  | exhausted =>
      obtain ⟨-, rfl⟩ := Prod.mk.inj hv
      exact absurd ht (by simp [Findings.truncate])
  | recursion => exact .inr (.inl ⟨rfl, hv⟩)
  | _ => exact .inr (.inr ⟨rfl, hv⟩)

/-- A step to a block that is not defined is a mistake. -/
theorem proceed_unpopulated (hb : g.block? a.block = some b) (hp : b.populated = false) :
    proceed g limits a others f = (.ok others, f.mistake b (.undeclaredState b.name)) := by
  unfold proceed
  rw [hb]
  cases a.left with
  | zero => simp [stopBefore, hp]
  | succ left =>
      simp [visit, hp, prospects, Frontier.overflows, Frontier.advance]

theorem proceed_of_visit {left : Nat} (hb : g.block? a.block = some b) (hl : a.left = left + 1)
    (hv : visit g limits b a.block a.path f = (.ok sides, f₁))
    (ho : others.overflows limits.maxPaths (prospects left sides) = false) :
    proceed g limits a others f =
      (.ok (others.advance limits.maxPaths (prospects left sides)), f₁) := by
  unfold proceed
  rw [hb, hl]
  dsimp only
  rw [hv]
  dsimp only
  rw [if_neg (by simp [ho])]

/-- **What a step does** that is not cut short. -/
theorem proceed_cases (h : proceed g limits a others f = (.ok next, f₁))
    (ht : f₁.truncated = false) :
    ∃ b, g.block? a.block = some b ∧
      ((b.populated = false ∧ next = others ∧ f₁ = f.mistake b (.undeclaredState b.name)) ∨
        (b.populated = true ∧ ∃ left sides, a.left = left + 1 ∧
          visit g limits b a.block a.path f = (.ok sides, f₁) ∧
          others.overflows limits.maxPaths (prospects left sides) = false ∧
          next = others.advance limits.maxPaths (prospects left sides))) := by
  cases hb : g.block? a.block with
  | none => simp [proceed, hb] at h
  | some b =>
      refine ⟨b, rfl, ?_⟩
      cases hp : b.populated with
      | false =>
          rw [proceed_unpopulated hb hp] at h
          obtain ⟨hnext, rfl⟩ := Prod.mk.inj h
          exact .inl ⟨rfl, (Except.ok.inj hnext).symm, rfl⟩
      | true =>
          refine .inr ⟨rfl, ?_⟩
          unfold proceed at h
          rw [hb] at h
          cases hl : a.left with
          | zero =>
              simp only [hl, stopBefore, hp, if_true] at h
              obtain ⟨-, rfl⟩ := Prod.mk.inj h
              exact absurd ht (by simp [Findings.truncate])
          | succ left =>
              simp only [hl] at h
              rcases hv : visit g limits b a.block a.path f with ⟨r, f₂⟩
              rw [hv] at h
              cases r with
              | error e => exact absurd (Prod.mk.inj h).1 (by simp)
              | ok sides =>
                  dsimp only at h
                  split at h
                  · obtain ⟨-, rfl⟩ := Prod.mk.inj h
                    exact absurd ht (by simp [Findings.truncate])
                  · rename_i hover
                    obtain ⟨hnext, rfl⟩ := Prod.mk.inj h
                    exact ⟨left, sides, rfl, rfl, by simpa using hover,
                      (Except.ok.inj hnext).symm⟩

/-- **A step through a block that jumps** once its body has run. -/
theorem proceed_of_jump {target : BlockId} {t : Trace} (hb : g.block? a.block = some b)
    (hjump : b.terminator = .jump target)
    (hruns : (a.path.enter a.block limits.maxWidenings).1.runs = true)
    (hbody : outcome (executeAll g.idOf? b.name b.body)
      ⟨(a.path.enter a.block limits.maxWidenings).2, #[]⟩ = (.ok (), t))
    (h : proceed g limits a others f = (.ok next, f₁)) (ht : f₁.truncated = false)
    (hp : b.populated = true) :
    ∃ left, a.left = left + 1 ∧
      next = { others with pending := ⟨target, t.path, left⟩ :: others.pending } ∧
      f₁.log.has .error = f.log.has .error := by
  obtain ⟨c, hc, hcases⟩ := proceed_cases h ht
  obtain rfl := Option.some.inj (hb.symm.trans hc)
  rcases hcases with ⟨hnp, -, -⟩ | ⟨-, left, sides, hl, hv, -, rfl⟩
  · exact absurd hp (by simp [hnp])
  · have hrun : (runBlock g b).runOn (a.path.enter a.block limits.maxWidenings).2 =
        (.ok [(target, t.path)], t) := by
      show outcome (runBlock g b) _ = _
      rw [runBlock_eq, outcome_bind_ok hbody, hjump]
      rfl
    rw [visit_runs hp hruns, hrun] at hv
    obtain ⟨hsides, rfl⟩ := Prod.mk.inj hv
    obtain rfl := Except.ok.inj hsides
    exact ⟨left, hl, by simp [Frontier.advance, prospects],
      by simp [Findings.warn, Findings.enter]⟩

/-! ## Steps side by side -/

/-- The same was found of late: mistakes are new on both sides or on neither, and the
second search was not cut short. -/
structure SameNews (f f₁ f' f₁' : Findings) : Prop where
  errors : ∃ d, f₁.log.has .error = (f.log.has .error || d) ∧
    f₁'.log.has .error = (f'.log.has .error || d)
  complete : f₁'.truncated = f'.truncated

theorem SameNews.trans {f₂ f₂' : Findings} (h : SameNews f f₁ f' f₁')
    (h' : SameNews f₁ f₂ f₁' f₂') : SameNews f f₂ f' f₂' := by
  obtain ⟨d, hd, hd'⟩ := h.errors
  obtain ⟨e, he, he'⟩ := h'.errors
  exact ⟨⟨d || e, by rw [he, hd, Bool.or_assoc], by rw [he', hd', Bool.or_assoc]⟩,
    h'.complete.trans h.complete⟩

/-- Nothing is new. -/
theorem SameNews.silent (h : f₁.log.has .error = f.log.has .error)
    (h' : f₁'.log.has .error = f'.log.has .error) (ht : f₁'.truncated = f'.truncated) :
    SameNews f f₁ f' f₁' := ⟨⟨false, by simp [h], by simp [h']⟩, ht⟩

/-- There are mistakes on both sides. -/
theorem SameNews.mistakes (h : f₁.log.has .error = true) (h' : f₁'.log.has .error = true)
    (ht : f₁'.truncated = f'.truncated) : SameNews f f₁ f' f₁' :=
  ⟨⟨true, by simp [h], by simp [h']⟩, ht⟩

/-- The states that a search comes through. -/
inductive Explored (g : FlowGraph) (limits : SearchSettings) :
    Frontier Prospect → Findings → Prop where
  | start {first : BlockId} (h : g.first = some first) :
      Explored g limits ⟨[⟨first, .start, limits.maxDepth⟩], 1⟩ { log := .empty }
  | step {frontier next : Frontier Prospect} {f f₁ : Findings} {a : Prospect}
      {rest : List Prospect} (h : Explored g limits frontier f)
      (hp : frontier.pending = a :: rest)
      (hs : proceed g limits a { frontier with pending := rest } f = (.ok next, f₁)) :
      Explored g limits next f₁

/-- No path of the search enters the block twice from the same caller. -/
def EnteredOnce (g : FlowGraph) (limits : SearchSettings) (id : BlockId) : Prop :=
  ∀ frontier f a rest, Explored g limits frontier f → frontier.pending = a :: rest →
    a.block = id → a.path.visits.get? (id, a.path.stack.topMarker?) = none

/-- Whenever a path of the search comes back to a block, what is on record there covers the
variables of these names that the path has. -/
def Covers (g : FlowGraph) (limits : SearchSettings) (names : List String) : Prop :=
  ∀ frontier f a rest, Explored g limits frontier f → frontier.pending = a :: rest →
    a.path.Covered a.block names

theorem covers_nil (g : FlowGraph) (limits : SearchSettings) : Covers g limits [] :=
  fun _ _ a _ _ _ => a.path.covered_nil a.block

/-- Where no path comes back to a block, there is nothing to cover. -/
theorem covers_of_enteredOnce (h : ∀ id, EnteredOnce g limits id) (names : List String) :
    Covers g limits names := by
  intro F f a rest hF hp r hr
  rw [h a.block F f a rest hF hp rfl] at hr
  exact absurd hr (by simp)

/-- **Simulation.**  If each step of a search is matched by a step of another search, or by
none, then both find mistakes, or neither does. -/
theorem explore_simulates {R : Frontier Prospect → Frontier Prospect → Prop} {fin : Findings}
    (hnil : ∀ F F', R F F' → F.pending = [] → F'.pending = [])
    (hstep : ∀ F F' a rest next f f₁, Explored g limits F f → R F F' → F.pending = a :: rest →
      proceed g limits a { F with pending := rest } f = (.ok next, f₁) → f₁.Grows fin →
      ∀ f', (R next F' ∧ SameNews f f₁ f' f') ∨
        ∃ a' rest' next' f₁', F'.pending = a' :: rest' ∧
          proceed g' limits a' { F' with pending := rest' } f' = (.ok next', f₁') ∧
          R next next' ∧ SameNews f f₁ f' f₁')
    {F F' : Frontier Prospect} {n : Nat} (hF : Explored g limits F f) (hR : R F F')
    (hrun : explore g limits F f = (.ok n, fin)) (f' : Findings) :
    ∃ n' f₁', explore g' limits F' f' = (.ok n', f₁') ∧ SameNews f fin f' f₁' := by
  induction F, f using explore_induction g limits generalizing F' f' with
  | nil F f hp =>
      rw [explore_nil hp] at hrun
      obtain ⟨-, rfl⟩ := Prod.mk.inj hrun
      exact ⟨_, f', explore_nil (hnil F F' hR hp) f', .silent rfl rfl rfl⟩
  | step F f a rest hp ih =>
      rw [explore_proceed hp] at hrun
      rcases hs : proceed g limits a { F with pending := rest } f with ⟨r, f₁⟩
      rw [hs] at hrun
      cases r with
      | error e => exact absurd (Prod.mk.inj hrun).1 (by simp)
      | ok next =>
          have hrun' : explore g limits next f₁ = (.ok n, fin) := hrun
          have hgrows : f₁.Grows fin := by
            have hgrows := grows_explore g limits next f₁
            rwa [hrun'] at hgrows
          rcases hstep F F' a rest next f f₁ hF hR hp hs hgrows f' with
            ⟨hR', hnews⟩ | ⟨a', rest', next', f₁', hp', hs', hR', hnews⟩
          · obtain ⟨n', fin', hrun'', hnews'⟩ :=
              ih next f₁ hs (hF.step hp hs) hR' hrun' f'
            exact ⟨n', fin', hrun'', hnews.trans hnews'⟩
          · obtain ⟨n', fin', hrun'', hnews'⟩ :=
              ih next f₁ hs (hF.step hp hs) hR' hrun' f₁'
            refine ⟨n', fin', ?_, hnews.trans hnews'⟩
            rw [explore_proceed hp', hs']
            exact hrun''

/-! ## Alike searches -/

/-- Prospects alike: alike paths that are about to enter blocks that correspond.  The
second may go at least as far. -/
structure Prospect.Alike (slack : Slack) (a b : Prospect) : Prop where
  block : slack.leads a.block b.block
  path : a.path.Alike slack b.path
  left : a.left ≤ b.left

/-- Frontiers of alike prospects. -/
structure Frontier.Alike (slack : Slack) (f f' : Frontier Prospect) : Prop where
  pending : List.Forall₂ (Prospect.Alike slack) f.pending f'.pending
  started : f.started = f'.started

theorem Frontier.Alike.nil {F F' : Frontier Prospect} (h : Frontier.Alike slack F F')
    (hp : F.pending = []) : F'.pending = [] := by
  have hpending := h.pending
  rw [hp] at hpending
  exact List.forall₂_nil_left_iff.1 hpending

/-- The next prospects correspond, and so do the others. -/
theorem Frontier.Alike.cons {F F' : Frontier Prospect} {rest : List Prospect}
    (h : Frontier.Alike slack F F') (hp : F.pending = a :: rest) :
    ∃ a' rest', F'.pending = a' :: rest' ∧ a.Alike slack a' ∧
      Frontier.Alike slack { F with pending := rest } { F' with pending := rest' } := by
  have hpending := h.pending
  rw [hp] at hpending
  obtain ⟨a', rest', ha, hrest, hp'⟩ := List.forall₂_cons_left_iff.1 hpending
  exact ⟨a', rest', hp', ha, hrest, h.started⟩

theorem SidesAlike.prospects {sides sides' : List Side} (h : SidesAlike slack sides sides')
    {left left' : Nat} (hl : left ≤ left') :
    List.Forall₂ (Prospect.Alike slack) (prospects left sides) (prospects left' sides') := by
  unfold Symbolic.prospects
  rw [List.forall₂_map_left_iff, List.forall₂_map_right_iff]
  exact h.imp fun _ _ hs => ⟨hs.1, hs.2, hl⟩

/-- A way that splits leaves alike frontiers alike. -/
theorem Frontier.Alike.advance {F F' : Frontier Prospect} (h : Frontier.Alike slack F F')
    {sides sides' : List Prospect} (hs : List.Forall₂ (Prospect.Alike slack) sides sides')
    (cap : Nat) :
    Frontier.Alike slack (F.advance cap sides) (F'.advance cap sides') := by
  have hroom : F.room cap = F'.room cap := by simp only [Frontier.room, h.started]
  have hnew : List.Forall₂ (Prospect.Alike slack) (sides.dropLast.take (F.room cap))
      (sides'.dropLast.take (F'.room cap)) := by
    rw [hroom, List.dropLast_eq_take, List.dropLast_eq_take, hs.length_eq]
    exact List.forall₂_take _ (List.forall₂_take _ hs)
  have hlast : List.Forall₂ (Prospect.Alike slack)
      sides.getLast?.toList sides'.getLast?.toList := by
    have hreverse := List.forall₂_reverse_iff.2 hs
    rw [← List.head?_reverse, ← List.head?_reverse]
    generalize sides.reverse = l, sides'.reverse = l' at hreverse
    cases hreverse with
    | nil => exact .nil
    | cons hp _ => exact .cons hp .nil
  refine ⟨?_, by simp only [Frontier.advance, h.started, hnew.length_eq]⟩
  exact List.rel_append (List.rel_append hlast (List.forall₂_reverse_iff.2 hnew)) h.pending

theorem Frontier.Alike.overflows {F F' : Frontier Prospect} (h : Frontier.Alike slack F F')
    {sides sides' : List Prospect} (hs : List.Forall₂ (Prospect.Alike slack) sides sides')
    (cap : Nat) : F.overflows cap sides = F'.overflows cap sides' := by
  unfold Frontier.overflows Frontier.room
  rw [h.started, hs.length_eq]

/-- A path that leaves a block is reported on both sides or on neither. -/
theorem conclude_alike {r r' : Except Error (List Side) × Trace}
    (h : Matches (fun sides _ sides' _ => SidesAlike slack sides sides') r r')
    (hf : f.conclude b r = (.ok sides, f₁)) (f' : Findings) (b' : Block) :
    ∃ sides' f₁', f'.conclude b' r' = (.ok sides', f₁') ∧ SidesAlike slack sides sides' ∧
      SameNews f f₁ f' f₁' := by
  cases h with
  | ok h =>
      obtain ⟨hsides, rfl⟩ := Prod.mk.inj hf
      obtain rfl := Except.ok.inj hsides
      exact ⟨_, _, rfl, h, .silent (by simp [Findings.warn]) (by simp [Findings.warn]) rfl⟩
  | @error e e' _ _ h =>
      cases e with
      | program cause =>
          obtain ⟨cause', rfl⟩ : ∃ cause', e' = .program cause' := by
            cases e' with
            | program cause' => exact ⟨cause', rfl⟩
            | _ => exact absurd h (by simp [Error.isRecoverable])
          obtain ⟨hsides, rfl⟩ := Prod.mk.inj hf
          obtain rfl := Except.ok.inj hsides
          exact ⟨_, _, rfl, .nil, .mistakes (by simp [Findings.mistake])
            (by simp [Findings.mistake]) rfl⟩
      | _ => exact absurd (Prod.mk.inj hf).1 (by simp)

/-- Two paths that enter blocks of two graphs go through them alike. -/
structure EnteredAlike (slack : Slack) (limits : SearchSettings) (g g' : FlowGraph)
    (id : BlockId) (b b' : Block) (p q : Path) : Prop where
  result : b.function.bind g.returnType? = b'.function.bind g'.returnType?
  run : (p.enter id limits.maxWidenings).1.runs = true →
    Matches (fun sides _ sides' _ => SidesAlike slack sides sides')
      ((runBlock g b).runOn (p.enter id limits.maxWidenings).2)
      ((runBlock g' b').runOn (q.enter id limits.maxWidenings).2)

/-- **Alike paths visit blocks alike** if they go through them alike. -/
theorem visit_alike (hb : EnteredAlike slack limits g g' id b b' p q) (hp : b.populated = true)
    (hp' : b'.populated = true) (h : p.Alike slack q) (hid : slack.leads id id)
    (hcovered : p.Covered id slack.unused)
    (hv : visit g limits b id p f = (.ok sides, f₁)) (ht : f₁.truncated = false) (f' : Findings) :
    ∃ sides' f₁', visit g' limits b' id q f' = (.ok sides', f₁') ∧
      SidesAlike slack sides sides' ∧ SameNews f f₁ f' f₁' := by
  obtain ⟨hverdict, henter⟩ := h.enter hid hcovered limits.maxWidenings
  -- entering a block adds nothing to the log
  have hnews : ∀ {f₁ f₁' : Findings}, SameNews (f.enter id p) f₁ (f'.enter id q) f₁' →
      SameNews f f₁ f' f₁' := fun h => ⟨h.errors, h.complete⟩
  rcases visit_cases hp hv ht with ⟨hsub, rfl, rfl⟩ | ⟨hrec, hc⟩ | ⟨hruns, hc⟩
  · refine ⟨[], f'.enter id q, ?_, .nil, .silent rfl rfl rfl⟩
    rw [hsub] at hverdict
    unfold visit
    rw [if_pos hp']
    rcases hq : q.enter id limits.maxWidenings with ⟨verdict, q'⟩
    rw [hq] at hverdict
    obtain rfl : .subsumed = verdict := hverdict
    rfl
  · obtain ⟨sides', f₁', hrun, hsides, hsame⟩ :=
      conclude_alike (tandem_skipCall henter hb.result #[] #[]) hc (f'.enter id q) b'
    refine ⟨sides', f₁', ?_, hsides, hnews hsame⟩
    rw [hrec] at hverdict
    unfold visit
    rw [if_pos hp']
    rcases hq : q.enter id limits.maxWidenings with ⟨verdict, q'⟩
    rw [hq] at hverdict hrun
    obtain rfl : .recursion = verdict := hverdict
    exact hrun
  · obtain ⟨sides', f₁', hrun, hsides, hsame⟩ :=
      conclude_alike (hb.run hruns) hc (f'.enter id q) b'
    refine ⟨sides', f₁', ?_, hsides, hnews hsame⟩
    rw [visit_runs hp' (hverdict ▸ hruns)]
    exact hrun

/-- **One step** of two searches into blocks that they go through alike. -/
theorem proceed_alike (ha : a.Alike slack a') (hblock : a'.block = a.block)
    (hid : slack.leads a.block a.block) (ho : Frontier.Alike slack others others')
    (hs : proceed g limits a others f = (.ok next, f₁)) (ht : f₁.truncated = false)
    (hcovered : a.path.Covered a.block slack.unused)
    (hblocks : ∀ b, g.block? a.block = some b → ∃ b', g'.block? a.block = some b' ∧
      b'.populated = b.populated ∧ (f₁.isReached a.block = true →
        EnteredAlike slack limits g g' a.block b b' a.path a'.path)) (f' : Findings) :
    ∃ next' f₁', proceed g' limits a' others' f' = (.ok next', f₁') ∧
      Frontier.Alike slack next next' ∧ SameNews f f₁ f' f₁' := by
  obtain ⟨b, hb, hcases⟩ := proceed_cases hs ht
  obtain ⟨b', hb', hpop, hbb⟩ := hblocks b hb
  rw [← hblock] at hb'
  rcases hcases with ⟨hp, rfl, rfl⟩ | ⟨hp, left, sides, hl, hv, hover, rfl⟩
  · exact ⟨_, _, proceed_unpopulated hb' (hpop.trans hp), ho,
      .mistakes (by simp [Findings.mistake]) (by simp [Findings.mistake]) rfl⟩
  · have hreached := (grows_visit g limits b a.block a.path f).2 hp
    rw [hv] at hreached
    obtain ⟨sides', f₁', hv', hsides, hnews⟩ :=
      visit_alike (hbb hreached) hp (hpop.trans hp) ha.path hid hcovered hv ht f'
    obtain ⟨left', hl', hle⟩ : ∃ left', a'.left = left' + 1 ∧ left ≤ left' := by
      have hle := ha.left
      exact ⟨a'.left - 1, by omega, by omega⟩
    have hprospects := hsides.prospects hle
    rw [← hblock] at hv'
    rw [ho.overflows hprospects] at hover
    exact ⟨_, _, proceed_of_visit hb' hl' hv' hover, ho.advance hprospects _, hnews⟩

/-! ### Blocks that are alike -/

/-- Two blocks of two graphs do the same to alike paths. -/
structure BlocksAlike (slack : Slack) (g g' : FlowGraph) (b b' : Block) : Prop where
  result : b.function.bind g.returnType? = b'.function.bind g'.returnType?
  run : ∀ p q, p.Alike slack q → Tandem (runBlock g b) p (runBlock g' b') q
    fun sides _ sides' _ => SidesAlike slack sides sides'

theorem BlocksAlike.entered (h : BlocksAlike slack g g' b b') (hpq : p.Alike slack q)
    (hid : slack.leads id id)
    (hcovered : p.Covered id slack.unused) :
    EnteredAlike slack limits g g' id b b' p q :=
  ⟨h.result, fun _ => h.run _ _ (hpq.enter hid hcovered limits.maxWidenings).2 #[] #[]⟩

/-- What a search reads of a block. -/
theorem fields_of_bare (h : b'.bare = b) :
    b'.populated = b.populated ∧ b'.function = b.function ∧ b'.body = b.body ∧
      b'.terminator = b.terminator := by
  subst h
  exact ⟨rfl, rfl, rfl, rfl⟩

/-- The same instructions with a terminator that leads to blocks that correspond. -/
theorem BlocksAlike.of_untouched (hresult : g'.resultTypes = g.resultTypes)
    (hfunction : b'.function = b.function) (hbody : b'.body = b.body)
    (hb : ∀ i ∈ b.body, Untouched slack g.idOf? g'.idOf? i)
    (he : LeadsAlike slack b.terminator b'.terminator) : BlocksAlike slack g g' b b' where
  result := by rw [hfunction, FlowGraph.returnType?_congr hresult]
  run p q h := by
    rw [runBlock_eq, runBlock_eq, hbody]
    refine (tandem_executeAll h hb).bind ?_
    rintro _ p' _ q' h'
    exact tandem_leaveBy h' he

/-! ## The whole search -/

/-- If the search of the first graph is not cut short, neither is that of the second, and
both find mistakes or neither does. -/
def SearchedAlike (limits : SearchSettings) (g g' : FlowGraph) : Prop :=
  ∀ summary, (searchFrom g limits .empty).1 = .ok summary → summary.truncated = false →
    ∃ summary', (searchFrom g' limits .empty).1 = .ok summary' ∧ summary'.truncated = false ∧
      g.hasMistakenPath limits = g'.hasMistakenPath limits

theorem SearchedAlike.refl (limits : SearchSettings) (g : FlowGraph) : SearchedAlike limits g g :=
  fun summary h ht => ⟨summary, h, ht, rfl⟩

theorem SearchedAlike.trans {g'' : FlowGraph} (h : SearchedAlike limits g g')
    (h' : SearchedAlike limits g' g'') : SearchedAlike limits g g'' := by
  intro summary hs ht
  obtain ⟨summary', hs', ht', heq⟩ := h summary hs ht
  obtain ⟨summary'', hs'', ht'', heq'⟩ := h' summary' hs' ht'
  exact ⟨summary'', hs'', ht'', heq.trans heq'⟩

/-- What a search has found in the end. -/
theorem exists_of_searchFrom {first : BlockId} {summary : SearchSummary}
    (hf : g.first = some first) (hs : (searchFrom g limits .empty).1 = .ok summary) :
    ∃ n fin, explore g limits ⟨[⟨first, .start, limits.maxDepth⟩], 1⟩ { log := .empty } =
        (.ok n, fin) ∧ summary.truncated = fin.truncated ∧ summary.results = fin.results ∧
      g.hasMistakenPath limits = fin.log.has .error := by
  unfold FlowGraph.hasMistakenPath
  unfold searchFrom at hs ⊢
  rw [hf] at hs ⊢
  dsimp only at hs ⊢
  rcases hrun : explore g limits ⟨[⟨first, .start, limits.maxDepth⟩], 1⟩ { log := .empty } with
    ⟨r, fin⟩
  rw [hrun] at hs
  cases r with
  | error e => exact absurd hs (by simp)
  | ok n =>
      obtain rfl := Except.ok.inj hs
      exact ⟨n, fin, rfl, rfl, rfl, rfl⟩

/-- Does the search enter the block? -/
def Enters (g : FlowGraph) (limits : SearchSettings) (id : BlockId) : Prop :=
  ∃ summary, (searchFrom g limits .empty).1 = .ok summary ∧ summary.isReached id = true

/-- **Searches side by side.**  It is enough to say what a step of the first search is
matched by. -/
theorem searchedAlike_of_simulation {R : Frontier Prospect → Frontier Prospect → Prop}
    (hfirst : ∀ first, g.first = some first → ∃ first', g'.first = some first' ∧
      R ⟨[⟨first, .start, limits.maxDepth⟩], 1⟩ ⟨[⟨first', .start, limits.maxDepth⟩], 1⟩)
    (hnone : g.first = none → g'.first = none)
    (hnil : ∀ F F', R F F' → F.pending = [] → F'.pending = [])
    (hstep : ∀ F F' a rest next f f₁, Explored g limits F f → R F F' → F.pending = a :: rest →
      proceed g limits a { F with pending := rest } f = (.ok next, f₁) →
      f₁.truncated = false → (∀ id, f₁.isReached id = true → Enters g limits id) →
      ∀ f', (R next F' ∧ SameNews f f₁ f' f') ∨
        ∃ a' rest' next' f₁', F'.pending = a' :: rest' ∧
          proceed g' limits a' { F' with pending := rest' } f' = (.ok next', f₁') ∧
          R next next' ∧ SameNews f f₁ f' f₁') :
    SearchedAlike limits g g' := by
  intro summary hs ht
  cases hf : g.first with
  | none =>
      have hf' := hnone hf
      refine ⟨{}, by simp [searchFrom, hf'], rfl, ?_⟩
      simp [FlowGraph.hasMistakenPath, searchFrom, hf, hf']
  | some first =>
      obtain ⟨first', hf', hR⟩ := hfirst first hf
      obtain ⟨n, fin, hrun, htruncated, hresults, herror⟩ := exists_of_searchFrom hf hs
      obtain ⟨n', fin', hrun', hnews⟩ := explore_simulates hnil
        (fun F F' a rest next f f₁ hF hR hp hproceed hgrows =>
          hstep F F' a rest next f f₁ hF hR hp hproceed
            (hgrows.complete (htruncated ▸ ht)) fun id hid => by
              have hreached := hgrows.reached id hid
              rw [Findings.isReached, ← hresults] at hreached
              exact ⟨summary, hs, hreached⟩)
        (.start hf) hR hrun { log := .empty }
      obtain ⟨d, hd, hd'⟩ := hnews.errors
      have hsearch : searchFrom g' limits .empty =
          (.ok { paths := n', truncated := fin'.truncated, results := fin'.results },
            fin'.log) := by
        unfold searchFrom
        rw [hf']
        dsimp only
        rw [hrun']
      refine ⟨_, congrArg Prod.fst hsearch, hnews.complete, ?_⟩
      rw [herror, FlowGraph.hasMistakenPath, hsearch, hd]
      exact hd'.symm

/-- Graphs with the same blocks, each of which does the same to alike paths. -/
theorem searchedAlike_of_blocks (slack : Slack) (hleads : slack.leads = Eq)
    (hfirst : g'.first = g.first)
    (hcovers : Covers g limits slack.unused)
    (hblocks : ∀ id b, g.block? id = some b → ∃ b', g'.block? id = some b' ∧
      b'.populated = b.populated ∧ (Enters g limits id → BlocksAlike slack g g' b b')) :
    SearchedAlike limits g g' := by
  have hself : ∀ id, slack.leads id id := fun id => by rw [hleads]
  refine searchedAlike_of_simulation (R := Frontier.Alike slack) ?_ (hfirst.trans ·) ?_ ?_
  · exact fun first hf => ⟨first, hfirst.trans hf, .cons ⟨hself first, .start, le_rfl⟩ .nil, rfl⟩
  · exact fun F F' h hp => h.nil hp
  · intro F F' a rest next f f₁ hF hR hp hs ht hreached f'
    obtain ⟨a', rest', hp', ha, hrest⟩ := hR.cons hp
    have hblock : a'.block = a.block := by
      have hab := ha.block
      rw [hleads] at hab
      exact hab.symm
    have hcovered := hcovers F f a rest hF hp
    obtain ⟨next', f₁', hs', hnext, hnews⟩ := proceed_alike ha hblock (hself _) hrest hs ht hcovered
      (fun b hb => by
        obtain ⟨b', hb', hpop, hbb⟩ := hblocks a.block b hb
        refine ⟨b', hb', hpop, fun hr => ?_⟩
        exact (hbb (hreached _ hr)).entered ha.path (hself _) hcovered) f'
    exact .inr ⟨a', rest', next', f₁', hp', hs', hnext, hnews⟩

end Symbolic
end FlowVerifier
