import FlowVerifier.Proofs.Run.Refinement
import FlowVerifier.Proofs.Symbolic.Caps
import FlowVerifier.Proofs.Symbolic.Carrying
import FlowVerifier.Proofs.Symbolic.Sweep
import Mathlib

/-!
# What the search covers

A search that was not cut short follows every way on, and a path that ends because it shows
nothing new leaves the rest to the path that made the record.  So a run of the program is
followed from block to block, now and then by another path.

* `Prospect.CutSoundly` is what this needs: where a path ends, the record does not know more
  about how variables are related than the path does, and no call is skipped as a repetition.
* `Path.Carries.of_record`: then the path that made the record carries the state as well.
* `Lived` is the history of a path that carries the run: each of its ways carried a state, and
  made the records that later ways find.  `Lived.entry` and `Lived.next` take it into a block
  and out of it.
* `run_followed` is the induction along the run, and `eliminateDeadCode_keeps_runs` the result:
  no block that the run enters is taken for dead.
-/

namespace FlowVerifier

open Run FlowGraph

namespace Symbolic

open Exec

variable {env : Environment} {g : FlowGraph} {limits : SearchSettings} {p q e : Path}
  {s s₀ s' : State} {n k : Nat} {b : Block} {l l₀ : Literal} {old : Snapshot} {r : Relation}

/-! ## Sound cuts -/

/-- The relation counts among the variables of an older state. -/
def Snapshot.IsCurrent (old : Snapshot) (r : Relation) : Prop :=
  (old.vars.get? r.other).map (·.version) = some r.version

instance : Decidable (old.IsCurrent r) := inferInstanceAs (Decidable (_ = _))

instance {vars : Scopes} : Decidable (vars.IsCurrent r) := inferInstanceAs (Decidable (_ = _))

/-- What counts of a slot of an older state is known of the same slot today, which comes from
the same variable. -/
def StackEntry.KnownAs (old : Snapshot) (vars : Scopes) : StackEntry → StackEntry → Prop
  | .value source v, .value source' w => source = source' ∧
      ∀ r ∈ v.relations, old.IsCurrent r →
        ∃ t ∈ w.relations, t.other = r.other ∧ vars.IsCurrent t ∧ t.op.implies r.op = true
  | _, _ => True

instance {vars : Scopes} :
    (slot slot' : StackEntry) → Decidable (slot.KnownAs old vars slot')
  | .value source v, .value source' w =>
    inferInstanceAs (Decidable (source = source' ∧ ∀ r ∈ v.relations, old.IsCurrent r →
      ∃ t ∈ w.relations, t.other = r.other ∧ vars.IsCurrent t ∧ t.op.implies r.op = true))
  | .value _ _, .marker _ => isTrue trivial
  | .marker _, _ => isTrue trivial

/-- The relations that count in an older state are known on the path. -/
structure Snapshot.KnownOn (old : Snapshot) (p : Path) : Prop where
  scalars : ∀ entry ∈ old.vars.entries, ∀ r ∈ entry.2.relations, old.IsCurrent r →
    (p.vars.relation entry.1 r.other).any (·.implies r.op) = true
  stack : ∀ slots ∈ old.stack.entries.zip p.stack.entries, slots.1.KnownAs old p.vars slots.2

instance : Decidable (old.KnownOn p) :=
  decidable_of_iff
    ((∀ entry ∈ old.vars.entries, ∀ r ∈ entry.2.relations, old.IsCurrent r →
        (p.vars.relation entry.1 r.other).any (·.implies r.op) = true) ∧
      ∀ slots ∈ old.stack.entries.zip p.stack.entries, slots.1.KnownAs old p.vars slots.2)
    ⟨fun h => ⟨h.1, h.2⟩, fun h => ⟨h.scalars, h.stack⟩⟩

/-- A path that ends at its block because it shows nothing new leaves nothing out: no call is
skipped, and the relations that the record relies on are known on the path. -/
structure Prospect.CutSoundly (limits : SearchSettings) (p : Prospect) : Prop where
  calls : (p.path.enter p.block limits.maxWidenings).1 ≠ .recursion
  relations : (p.path.enter p.block limits.maxWidenings).1 = .subsumed →
    ∀ record ∈ p.path.visits.get? (p.block, p.path.stack.topMarker?),
      record.snapshot.KnownOn p.path

instance {p : Prospect} : Decidable (p.CutSoundly limits) :=
  decidable_of_iff
    ((p.path.enter p.block limits.maxWidenings).1 ≠ .recursion ∧
      ((p.path.enter p.block limits.maxWidenings).1 = .subsumed →
        ∀ record ∈ p.path.visits.get? (p.block, p.path.stack.topMarker?),
          record.snapshot.KnownOn p.path))
    ⟨fun h => ⟨h.1, h.2⟩, fun h => ⟨h.calls, h.relations⟩⟩

namespace Path

/-! ## The path that made the record -/

/-- A path that ends because it shows nothing new is covered by a record. -/
theorem enter_subsumed {block : BlockId} {maxWidenings : Nat}
    (h : (p.enter block maxWidenings).1 = .subsumed) :
    ∃ record, p.visits.get? (block, p.stack.topMarker?) = some record ∧
      record.snapshot.subsumes p.snapshot true = true := by
  unfold enter at h
  dsimp only at h
  cases hrecord : p.visits.get? (block, p.stack.topMarker?) with
  | none =>
      rw [hrecord] at h
      cases h
  | some record =>
      rw [hrecord] at h
      dsimp only at h
      split at h
      · cases h
      · split at h
        · rename_i hsub
          dsimp only at h
          split at h
          · cases h
          · rename_i hdepth
            refine ⟨record, rfl, ?_⟩
            rw [decide_eq_false (by simpa using hdepth)] at hsub
            exact hsub
        · split at h <;> cases h

/-- A relation of the older state is right today if it is wherever it counts. -/
theorem sound_of_current (he : r.Sound e.vars s₀.vars l₀) (hp : p.Describes s)
    (hnamed : e.NamedIn p)
    (hcurrent : e.snapshot.IsCurrent r → ∀ m, s.vars r.other = some m →
      r.op.fold l m = .ok true) : r.Sound e.vars s.vars l := by
  obtain ⟨w, -, hw, -, hle, -⟩ := he
  obtain ⟨u, hu⟩ := Option.isSome_iff_exists.1
    (hnamed.vars r.other (by rw [Path.var?, hw]; rfl))
  obtain ⟨m, hm, -⟩ := hp.of_var? hu
  refine ⟨w, m, hw, hm, hle, fun hversion => hcurrent ?_ m hm⟩
  rw [Snapshot.IsCurrent, Path.snapshot, Scopes.get?_visible, hw, Option.map_some, hversion]

/-- A variable of the older state describes the value that the variable has today. -/
theorem describes_scalar (he : e.Describes s₀) (hp : p.Describes s) (hnamed : e.NamedIn p)
    (hsub : e.snapshot.subsumes p.snapshot true = true) (hknown : e.snapshot.KnownOn p)
    (name : String) :
    Option.Rel (Variable.Describes e.vars s.vars) (e.var? name) (s.vars name) := by
  cases hl : s.vars name with
  | none =>
      have hnone : e.var? name = none := by
        by_contra hsome
        have hp' := hnamed.vars name (Option.isSome_iff_ne_none.2 hsome)
        rw [hp.var?_eq_none hl] at hp'
        cases hp'
      rw [hnone]
      exact .none
  | some l =>
      obtain ⟨w, hw, hwd⟩ := hp.of_held hl
      simp only [Snapshot.subsumes, Bool.and_eq_true, List.all_eq_true] at hsub
      have hany := hsub.1.1 _ (Table.mem_entries_of_get?
        ((Scopes.get?_visible p.vars name).trans hw))
      obtain ⟨v, hv, hsubsumes⟩ := (Option.any_eq_true _ _).1 hany
      have hvar : e.var? name = some v := (Scopes.get?_visible e.vars name).symm.trans hv
      obtain ⟨l₀, -, hvd⟩ := he.of_var? hvar
      simp only [Variable.subsumes, Bool.and_eq_true, beq_iff_eq] at hsubsumes
      rw [hvar]
      refine .some ⟨hsubsumes.1.1.trans hwd.type,
        Value.contains_of_subsumes hsubsumes.1.2 hwd.value, fun r hr => ?_⟩
      refine sound_of_current (hvd.relations r hr) hp hnamed fun hcurrent m hm => ?_
      obtain ⟨u, -, hud⟩ := hp.of_held hm
      obtain ⟨op, hop, himplies⟩ := (Option.any_eq_true _ _).1
        (hknown.scalars (name, v) (Table.mem_entries_of_get? hv) r hr hcurrent)
      exact RelOp.fold_of_implies (Value.isNaN_of_contains hwd.value)
        (Value.isNaN_of_contains hud.value) himplies (relation_sound hp hl hm hop)

/-- A slot of the older state describes the slot that is at its place today. -/
theorem describes_slot {slot slot' : StackEntry} {entry entry₀ : Entry}
    (he : slot.Describes e.vars s₀.vars entry₀) (hp : p.Describes s) (hnamed : e.NamedIn p)
    (hslot : slot'.Describes p.vars s.vars entry) (hsub : slot.subsumes slot' = true)
    (hknown : slot.KnownAs e.snapshot p.vars slot') (hsource : slot'.source? = entry.source?) :
    slot.Describes e.vars s.vars entry ∧ slot.source? = entry.source? := by
  cases slot with
  | marker c =>
      cases slot' with
      | value source' w => cases hsub
      | marker c' =>
          obtain rfl : c = c' := by simpa [StackEntry.subsumes] using hsub
          cases entry with
          | value source m => exact hslot.elim
          | marker c' => exact ⟨hslot, rfl⟩
  | value source v =>
      cases slot' with
      | marker c' => cases hsub
      | value source' w =>
          cases entry with
          | marker c' => exact hslot.elim
          | value source'' m =>
              cases entry₀ with
              | marker c' => exact he.elim
              | value source₀ m₀ =>
                  have hv : v.Describes e.vars s₀.vars m₀ := he
                  have hw : w.Describes p.vars s.vars m := hslot
                  obtain ⟨rfl, hrelations⟩ := hknown
                  have hvalue : v.value.contains m = true :=
                    Value.contains_of_subsumes hsub hw.value
                  refine ⟨⟨hv.type_value.symm.trans (Value.type_of_contains hvalue), hvalue,
                    fun r hr => ?_⟩, hsource⟩
                  refine sound_of_current (hv.relations r hr) hp hnamed fun hcurrent k hk => ?_
                  obtain ⟨t, ht, hother, hlive, himplies⟩ := hrelations r hr hcurrent
                  obtain ⟨u, hu, hud⟩ := hp.of_held hk
                  obtain ⟨u', k', hu', hk', -, hfold⟩ := hw.relations t ht
                  rw [hother, show p.vars.get? r.other = some u from hu] at hu'
                  rw [hother, hk] at hk'
                  cases hu'
                  cases hk'
                  rw [Scopes.IsCurrent, hother, show p.vars.get? r.other = some u from hu,
                    Option.map_some, Option.some.injEq] at hlive
                  exact RelOp.fold_of_implies (Value.isNaN_of_contains hw.value)
                    (Value.isNaN_of_contains hud.value) himplies (hfold hlive.symm)

/-- The slots of the older state describe the stack of today. -/
theorem describes_slots (hp : p.Describes s) (hnamed : e.NamedIn p)
    {slots slots' : List StackEntry} {entries entries₀ : List Entry}
    (he : List.Forall₂ (StackEntry.Describes e.vars s₀.vars) slots entries₀)
    (hslots : List.Forall₂ (StackEntry.Describes p.vars s.vars) slots' entries)
    (hlength : slots.length = slots'.length)
    (hsub : ∀ pair ∈ slots.zip slots', pair.1.subsumes pair.2 = true)
    (hknown : ∀ pair ∈ slots.zip slots', pair.1.KnownAs e.snapshot p.vars pair.2)
    (hsources : slots'.map StackEntry.source? = entries.map Entry.source?) :
    List.Forall₂ (StackEntry.Describes e.vars s.vars) slots entries ∧
      slots.map StackEntry.source? = entries.map Entry.source? := by
  induction he generalizing slots' entries with
  | nil =>
      obtain rfl := List.length_eq_zero_iff.1 hlength.symm
      cases hslots
      exact ⟨.nil, rfl⟩
  | cons hhead _ ih =>
      cases hslots with
      | nil => cases hlength
      | cons hhead' htail' =>
          simp only [List.zip_cons_cons, List.forall_mem_cons] at hsub hknown
          simp only [List.map_cons, List.cons.injEq] at hsources
          obtain ⟨hdescribes, hsource⟩ :=
            describes_slot hhead hp hnamed hhead' hsub.1 hknown.1 hsources.1
          obtain ⟨hrest, hmore⟩ := ih htail' (by simpa using hlength) hsub.2 hknown.2 hsources.2
          exact ⟨.cons hdescribes hrest, by rw [List.map_cons, List.map_cons, hsource, hmore]⟩

/-- **A covered path.**  What made the record carries every state that the path carries which the
record covers, if the record does not know more than the path. -/
theorem Carries.of_record (he : e.Carries n s₀) (hp : p.Carries k s) (hnamed : e.NamedIn p)
    (hsub : e.snapshot.subsumes p.snapshot true = true) (hknown : e.snapshot.KnownOn p) :
    e.Carries n s := by
  have hcovers := hsub
  simp only [Snapshot.subsumes, Bool.and_eq_true, List.all_eq_true, if_true, Stack.subsumes,
    beq_iff_eq] at hcovers
  obtain ⟨⟨-, harrays⟩, hsize, hslots⟩ := hcovers
  obtain ⟨hstack, hsources⟩ := describes_slots hp.describes hnamed he.describes.stack
    hp.describes.stack hsize hslots hknown.stack hp.sources
  have hdescribes : e.Describes s := by
    refine ⟨describes_scalar he.describes hp.describes hnamed hsub hknown, fun name => ?_, hstack⟩
    cases hc : s.arrays name with
    | none =>
        have hnone : e.arrays.get? name = none := by
          by_contra hsome
          have hp' := hnamed.arrays name (Option.isSome_iff_ne_none.2 hsome)
          have hrel := hp.describes.arrays name
          rw [hc] at hrel
          cases hget : p.arrays.get? name with
          | none => rw [hget] at hp'; cases hp'
          | some a => rw [hget] at hrel; cases hrel
        rw [hnone]
        exact .none
    | some c =>
        obtain ⟨a, ha, had⟩ := hp.describes.of_array hc
        obtain ⟨o, ho, hsubsumes⟩ := (Option.any_eq_true _ _).1
          (harrays _ (Table.mem_entries_of_get? ha))
        rw [show e.arrays.get? name = some o from ho]
        exact .some (had.of_subsumes (he.arraysBuilt name o ho).wellFormed
          (hp.arraysBuilt name a ha).wellFormed hsubsumes)
  exact ⟨he.arraysBuilt, he.recordsBuilt, hdescribes, he.counted.transfer he.describes hdescribes,
    hsources⟩

end Path

/-! ## Histories -/

/-- Every record of the path was made by one of the ways before it. -/
def Recorded (g : FlowGraph) (limits : SearchSettings) (p : Path) (before : List Prospect) :
    Prop :=
  ∀ key record, p.visits.get? key = some record → ∃ way ∈ before, way.block = key.1 ∧
    ∃ b e, way.GoesThrough g limits b e ∧ e.snapshot = record.snapshot ∧ e.NamedIn p

/-- A way that was followed and carried a state to its block.  Bodies are shorter than
`length`. -/
structure Arrival (g : FlowGraph) (limits : SearchSettings) (length : Nat) (way : Prospect)
    (before : List Prospect) : Prop where
  followed : way ∈ (Survey.whole g limits).followed
  depth : way.path.depth + way.left = limits.maxDepth
  carried : ∃ s, way.path.Carries (way.path.depth * length) s
  recorded : Recorded g limits way.path before

/-- A way and the ways before it, the latest first, each of which carried a state. -/
def Lived (g : FlowGraph) (limits : SearchSettings) (length : Nat) : List Prospect → Prop
  | [] => True
  | way :: before => Arrival g limits length way before ∧ Lived g limits length before

/-- No NaN is involved in the first steps of a run: none arises in a state or in a body, and no
test asks for being different from NaN. -/
structure RunsOrdered (env : Environment) (g : FlowGraph) (n : Nat) : Prop where
  states : ∀ k ≤ n, ∀ id s, after env g k = .at id s → s.Ordered
  bodies : ∀ k < n, ∀ id s b, after env g k = .at id s → g.block? id = some b →
    OrderedAlong env g.idOf? b.body s
  tests : ∀ k < n, ∀ id s b, after env g k = .at id s → g.block? id = some b →
    ∀ test, b.test? = some test → test.Orderly

theorem RunsOrdered.mono (h : RunsOrdered env g n) (hk : k ≤ n) : RunsOrdered env g k :=
  ⟨fun i hi => h.states i (hi.trans hk), fun i hi => h.bodies i (Nat.lt_of_lt_of_le hi hk),
    fun i hi => h.tests i (Nat.lt_of_lt_of_le hi hk)⟩

theorem Lived.of_mem {length : Nat} {way : Prospect} {ways : List Prospect}
    (h : Lived g limits length ways) (hway : way ∈ ways) :
    ∃ before, Lived g limits length (way :: before) := by
  induction ways with
  | nil => cases hway
  | cons first before ih =>
      rcases List.mem_cons.1 hway with rfl | hway
      · exact ⟨before, h⟩
      · exact ih h.2 hway

section Run

variable {length : Nat} {way : Prospect} {before : List Prospect}
  (hlength : ∀ id b, g.block? id = some b → b.body.length < length)
  (hroom : limits.maxDepth * length < 2 ^ 64)

include hlength hroom

/-- The versions that a block may need are there. -/
theorem Arrival.room (h : Arrival g limits length way before) (hb : g.block? way.block = some b)
    (hleft : 0 < way.left) :
    way.path.depth * length + 1 + b.body.length ≤ (way.path.depth + 1) * length ∧
      (way.path.depth + 1) * length < 2 ^ 64 := by
  have hbody := hlength _ b hb
  have hdepth := h.depth
  have hle : (way.path.depth + 1) * length ≤ limits.maxDepth * length :=
    Nat.mul_le_mul_right _ (by omega)
  rw [Nat.succ_mul] at hle ⊢
  omega

/-- **Into a block.**  The state that arrives goes through the block, on its own path or on one
that came there before. -/
theorem Lived.entry (h : Lived g limits length (way :: before))
    (hs : way.path.Carries (way.path.depth * length) s) (hb : g.block? way.block = some b)
    (hpopulated : b.populated = true) (hstopped : ¬ way.Stopped g limits)
    (hcut : way.CutSoundly limits) :
    ∃ way' before' e, Lived g limits length (way' :: before') ∧ way'.GoesThrough g limits b e ∧
      e.Carries (way'.path.depth * length + 1) s := by
  have hleft : 0 < way.left :=
    Nat.pos_of_ne_zero fun hzero => hstopped ⟨b, hb, hpopulated, .inl hzero⟩
  have hexhausted : (way.path.enter way.block limits.maxWidenings).1 ≠ .exhausted :=
    fun hex => hstopped ⟨b, hb, hpopulated, .inr hex⟩
  by_cases hsub : (way.path.enter way.block limits.maxWidenings).1 = .subsumed
  · obtain ⟨record, hget, hcovers⟩ := Path.enter_subsumed hsub
    obtain ⟨way', hway', hblock, b', e, hthrough, hsnapshot, hnamed⟩ :=
      h.1.recorded _ record hget
    obtain ⟨before', hlived⟩ := h.2.of_mem hway'
    obtain rfl : b' = b := by
      have hb' := hthrough.block
      rw [hblock] at hb'
      exact Option.some.inj (hb'.symm.trans hb)
    obtain ⟨s₀, hs₀⟩ := hlived.1.carried
    obtain ⟨hle, hlt⟩ := hlived.1.room hlength hroom hthrough.block hthrough.left
    obtain ⟨r, hentry, -⟩ := hthrough.entry
    have he := hs₀.enter (by omega) way'.block limits.maxWidenings
    rw [hentry] at he
    refine ⟨way', before', e, hlived, hthrough, he.of_record hs hnamed ?_ ?_⟩
    · rw [hsnapshot]
      exact hcovers
    · rw [hsnapshot]
      exact hcut.relations hsub record hget
  · obtain ⟨hle, hlt⟩ := h.1.room hlength hroom hb hleft
    exact ⟨way, before, _, h, ⟨hb, hpopulated, hleft, _, rfl, hsub, hexhausted, hcut.calls⟩,
      hs.enter (by omega) _ _⟩

/-- **Out of a block.**  The state goes on to where the program goes, and the way that takes it
there was followed. -/
theorem Lived.next (henv : env.Typed)
    (hfollowed : ∀ p ∈ (Survey.whole g limits).followed, ∀ q ∈ onward g limits p,
      q ∈ (Survey.whole g limits).followed)
    (h : Lived g limits length (way :: before)) (hthrough : way.GoesThrough g limits b e)
    (hs : e.Carries (way.path.depth * length + 1) s)
    (hrun : Run.runBlock env g.idOf? b s = .at k s')
    (hbody : OrderedAlong env g.idOf? b.body s) (ho : s'.Ordered)
    (htest : ∀ test, b.test? = some test → test.Orderly) :
    ∃ next : Prospect, next.block = k ∧ Lived g limits length (next :: way :: before) ∧
      next.path.Carries (next.path.depth * length) s' := by
  obtain ⟨hle, hlt⟩ := h.1.room hlength hroom hthrough.block hthrough.left
  obtain ⟨left, hleft⟩ := Nat.exists_eq_add_of_lt hthrough.left
  rw [Nat.zero_add] at hleft
  obtain ⟨sides, _, ws, hsides, q, hq, hcarries⟩ :=
    hs.runBlock henv (by omega) hrun hbody ho htest #[]
  have honward : (⟨k, q, left⟩ : Prospect) ∈ onward g limits way :=
    hthrough.mem_onward hsides hq hleft
  obtain ⟨hdepth, hsum⟩ := depth_onward honward
  have hcontinues := (continues_onward honward).1
  dsimp only at hdepth hsum hcontinues
  have hnext : q.Carries (q.depth * length) s' := hcarries.mono (hdepth ▸ hle)
  refine ⟨⟨k, q, left⟩, rfl, ⟨⟨hfollowed way h.1.followed _ honward, ?_, ⟨s', hnext⟩, ?_⟩, h⟩,
    hnext⟩
  · have := h.1.depth
    dsimp only
    omega
  · obtain ⟨r, hentry, -⟩ := hthrough.entry
    have hentered := Path.namedIn_enter way.path way.block limits.maxWidenings
    rw [hentry] at hcontinues hentered
    intro key record hget
    rw [hcontinues.visits] at hget
    -- a record was made by an earlier way, or is the one that this entry made
    have hold : way.path.visits.get? key = some record → ∃ way' ∈ way :: before,
        way'.block = key.1 ∧ ∃ b e, way'.GoesThrough g limits b e ∧
          e.snapshot = record.snapshot ∧ e.NamedIn q := by
      intro hget
      obtain ⟨way', hway', hblock, b', e', hthrough', hsnapshot, hnamed⟩ :=
        h.1.recorded key record hget
      exact ⟨way', List.mem_cons_of_mem _ hway', hblock, b', e', hthrough', hsnapshot,
        (hnamed.trans hentered).trans hcontinues.toNamedIn⟩
    have hnew : ∀ {made : VisitRecord}, e.visits = way.path.visits.insert
        (way.block, way.path.stack.topMarker?) made → e.snapshot = made.snapshot →
        ∃ way' ∈ way :: before, way'.block = key.1 ∧ ∃ b e, way'.GoesThrough g limits b e ∧
          e.snapshot = record.snapshot ∧ e.NamedIn q := by
      intro made hvisits hsnapshot
      rw [hvisits, Table.get?_insert] at hget
      split at hget
      · rename_i hkey
        cases hget
        exact ⟨way, List.mem_cons_self, hkey ▸ rfl, b, e, hthrough, hsnapshot,
          hcontinues.toNamedIn⟩
      · exact hold hget
    rcases way.path.enter_cases way.block limits.maxWidenings with heq | ⟨r', -, heq⟩ |
      ⟨former, -, -, heq⟩ <;> obtain ⟨rfl, rfl⟩ := Prod.mk.inj (hentry.symm.trans heq)
    · exact hnew rfl rfl
    · exact hold hget
    · exact hnew rfl rfl

/-- **A run is followed.**  Wherever the program is after some steps, a way arrives that carries
its state. -/
theorem run_followed (henv : env.Typed) (hdropped : (Survey.whole g limits).dropped = [])
    (hstopped : ∀ p ∈ (Survey.whole g limits).followed, ¬ p.Stopped g limits)
    (hcuts : ∀ p ∈ (Survey.whole g limits).followed, p.CutSoundly limits)
    (hordered : RunsOrdered env g n) {id : BlockId} (hat : after env g n = .at id s) :
    ∃ way before, way.block = id ∧ Lived g limits length (way :: before) ∧
      way.path.Carries (way.path.depth * length) s := by
  obtain ⟨horigins, hfollowed⟩ := Survey.whole_followed hdropped
  induction n generalizing id s with
  | zero =>
      cases hfirst : g.first with
      | none => simp [after, steps, start, hfirst] at hat
      | some first =>
          simp only [after, steps, start, hfirst] at hat
          cases hat
          have hstart : Path.start.Carries (Path.start.depth * length) {} :=
            Path.Carries.start.mono (Nat.zero_le _)
          refine ⟨⟨id, .start, limits.maxDepth⟩, [], rfl,
            ⟨⟨horigins _ ?_, Nat.zero_add _, ⟨_, hstart⟩, ?_⟩, trivial⟩, hstart⟩
          · simp [origins, hfirst]
          · exact fun key record hget => absurd hget (by simp [Path.start])
  | succ n ih =>
      rw [after_succ] at hat
      cases hbefore : after env g n with
      | ended ending s₀ =>
          rw [hbefore] at hat
          cases hat
      | «at» id₀ s₀ =>
          rw [hbefore, step] at hat
          split at hat
          · rename_i b hb
            have hpopulated : b.populated = true := by
              unfold Run.runBlock at hat
              split at hat
              · assumption
              · cases hat
            obtain ⟨way, before, rfl, hlived, hcarries⟩ :=
              ih (hordered.mono (Nat.le_succ n)) hbefore
            obtain ⟨way', before', e, hlived', hthrough, he⟩ := hlived.entry hlength hroom hcarries
              hb hpopulated (hstopped _ hlived.1.followed) (hcuts _ hlived.1.followed)
            have hafter : after env g (n + 1) = .at id s := by
              rw [after_succ, hbefore, step, hb]
              exact hat
            obtain ⟨next, hnext⟩ := hlived'.next hlength hroom henv hfollowed hthrough he hat
              (hordered.bodies n (Nat.lt_succ_self n) _ s₀ b hbefore hb)
              (hordered.states (n + 1) (Nat.le_refl _) id s hafter)
              (hordered.tests n (Nat.lt_succ_self n) _ s₀ b hbefore hb)
            exact ⟨next, _, hnext⟩
          · cases hat

end Run

/-! ## Dead code -/

theorem isReached_of_visits {f : Findings} {paths : Nat} {id : BlockId} (h : 0 < f.visits id) :
    (⟨paths, f.truncated, [], f.results⟩ : SearchSummary).isReached id = true := by
  unfold Findings.visits at h
  unfold SearchSummary.isReached
  cases hr : f.results.get? id with
  | none => simp [hr] at h
  | some result => simpa [hr] using h

/-- A search that was not cut short, and cut no path unsoundly, has entered every block that a run
of the program enters. -/
theorem isReached_of_run {log log' : Log} {summary : SearchSummary} {length : Nat}
    (henv : env.Typed) (hlength : ∀ id b, g.block? id = some b → b.body.length < length)
    (hroom : limits.maxDepth * length < 2 ^ 64)
    (hsearch : searchFrom g limits log = (.ok summary, log')) (ht : summary.truncated = false)
    (hcuts : ∀ p ∈ (Survey.whole g limits).followed, p.CutSoundly limits)
    (hordered : RunsOrdered env g n) {id : BlockId} (hat : after env g n = .at id s)
    (hb : g.block? id = some b) (hpopulated : b.populated = true) :
    summary.isReached id = true := by
  obtain ⟨f, hagree, rfl⟩ := agree_of_searchFrom hsearch
  have hcut : ¬ (Survey.whole g limits).Cut g limits := fun hcut =>
    Bool.false_ne_true (ht.symm.trans (hagree.truncated.2 hcut))
  obtain ⟨hdropped, hstopped⟩ := not_or.1 hcut
  have hstopped : ∀ p ∈ (Survey.whole g limits).followed, ¬ p.Stopped g limits :=
    fun p hp hs => hstopped ⟨p, hp, hs⟩
  obtain ⟨way, before, rfl, hlived, -⟩ := run_followed hlength hroom henv
    (not_not.1 hdropped) hstopped hcuts hordered hat
  have hleft : 0 < way.left := Nat.pos_of_ne_zero fun hzero =>
    hstopped way hlived.1.followed ⟨b, hb, hpopulated, .inl hzero⟩
  have hreached : 0 < f.visits way.block := by
    rw [hagree.visits, List.countP_pos_iff]
    exact ⟨way, hlived.1.followed, by simp [Prospect.enters, hb, hpopulated, hleft]⟩
  exact isReached_of_visits hreached

/-- **Code that runs is kept**, where no path is cut unsoundly.  A search that was not cut short
has entered every block that a run of the program enters, and dead code elimination leaves it
in place, also where it fails in the middle. -/
theorem eliminateDeadCode_keeps_runs {log log' : Log} {summary : SearchSummary} {length : Nat}
    (hvalid : g.validate = .ok ()) (henv : env.Typed)
    (hlength : ∀ id b, g.block? id = some b → b.body.length < length)
    (hroom : limits.maxDepth * length < 2 ^ 64)
    (hsearch : searchFrom g limits log = (.ok summary, log')) (ht : summary.truncated = false)
    (hcuts : ∀ p ∈ (Survey.whole g limits).followed, p.CutSoundly limits)
    (hordered : RunsOrdered env g n) {id : BlockId} (hat : after env g n = .at id s)
    (hb : g.block? id = some b) (hpopulated : b.populated = true) :
    summary.isReached id = true ∧
      ((eliminateDeadCode summary).runOn { graph := g, log := log' }).2.graph.contains id =
        true := by
  have hreached := isReached_of_run henv hlength hroom hsearch ht hcuts hordered hat hb hpopulated
  exact ⟨hreached, Needed.stays (validate_iff.1 hvalid)
    (.entered (contains_iff.2 ⟨b, hb⟩) hreached) log'⟩

/-- A loop that is entered with `x` at most `y`, and never left. -/
def steady : FlowGraph where
  slots := #[
    some {
      name := "entry"
      body := [.declare "x" .double, .declare "y" .double]
      terminator := .branch ⟨.var "x", .le, .var "y"⟩ 1 4 },
    some {
      name := "head"
      terminator := .branch ⟨.var "x", .le, .var "y"⟩ 2 3
      predecessors := [0, 2] },
    some {
      name := "body"
      body := [.print (.var "x")]
      terminator := .jump 1
      predecessors := [1] },
    some { name := "above", body := [.print (.var "x")], predecessors := [1] },
    some { name := "end", predecessors := [0] }]
  first := some 0

/-- Both variables are zero. -/
def steadyState (printed : List Literal) : State where
  vars name := if name = "y" then some (.number .zero) else
    if name = "x" then some (.number .zero) else none
  printed := printed

theorem steadyState_ordered (printed : List Literal) : (steadyState printed).Ordered := by
  refine .of_vars rfl rfl fun name l hl => ?_
  simp only [steadyState] at hl
  split_ifs at hl <;> cases hl <;> decide

/-- The run goes around in the loop. -/
theorem after_steady (n : Nat) : after zeros steady n = .at 0 {} ∨
    ∃ id printed, (id = 1 ∨ id = 2) ∧ after zeros steady n = .at id (steadyState printed) := by
  induction n with
  | zero => exact .inl rfl
  | succ n ih =>
      rw [after_succ]
      right
      rcases ih with h | ⟨id, printed, rfl | rfl, h⟩ <;> rw [h]
      · exact ⟨1, [], .inl rfl, rfl⟩
      · exact ⟨2, printed, .inr rfl, rfl⟩
      · exact ⟨1, printed ++ [.number .zero], .inl rfl, rfl⟩

theorem orderedAlong_entry :
    OrderedAlong zeros steady.idOf? [.declare "x" .double, .declare "y" .double] {} := by
  intro s' hs'
  cases hs'
  refine ⟨.of_vars rfl rfl fun name l hl => ?_, fun s' hs' => ?_⟩
  · simp only [State.bind] at hl
    split_ifs at hl
    cases hl
    decide
  · cases hs'
    exact ⟨steadyState_ordered [], trivial⟩

theorem steady_runsOrdered (n : Nat) : RunsOrdered zeros steady n := by
  refine ⟨fun k _ id s hat => ?_, fun k _ id s b hat hb => ?_, fun k _ id s b hat hb => ?_⟩ <;>
    rcases after_steady k with h | ⟨id', printed, hid, h⟩ <;> cases h.symm.trans hat
  · exact .of_vars rfl rfl fun _ _ hl => absurd hl (by simp)
  · exact steadyState_ordered printed
  · cases hb
    exact orderedAlong_entry
  · rcases hid with rfl | rfl <;> cases hb
    · trivial
    · intro s' hs'
      cases hs'
      exact ⟨steadyState_ordered _, trivial⟩
  · cases hb
    rintro test ⟨⟩
    simp [Comparison.Orderly]
  · rcases hid with rfl | rfl <;> cases hb <;> rintro test ⟨⟩
    simp [Comparison.Orderly]

/-- The loop is cut where the run comes back to its head, for what is known of `x` and `y` has
not changed; the way out of the loop is removed, and the loop stays. -/
theorem eliminateDeadCode_keeps_runs_steady :
    ∃ summary log names w', searchFrom steady { maxPaths := 2, maxDepth := 5 } {} =
        (.ok summary, log) ∧
      (eliminateDeadCode summary).runOn { graph := steady, log } = (.ok names, w') ∧
      w'.graph.contains 3 = false ∧
      (∃ s, after zeros steady 4 = .at 2 s) ∧ summary.isReached 2 = true ∧
      w'.graph.contains 2 = true := by
  have hrun : ∃ summary log names w', searchFrom steady { maxPaths := 2, maxDepth := 5 } {} =
        (.ok summary, log) ∧ summary.truncated = false ∧
      (eliminateDeadCode summary).runOn { graph := steady, log } = (.ok names, w') ∧
      w'.graph.contains 3 = false :=
    ⟨_, _, ["above"], _, by cbv, by cbv, Prod.ext (by cbv) rfl, by cbv⟩
  obtain ⟨summary, log, names, w', hsearch, ht, hrun, hremoved⟩ := hrun
  have hcuts : ((Survey.whole steady { maxPaths := 2, maxDepth := 5 }).followed.all
      fun p => decide (p.CutSoundly { maxPaths := 2, maxDepth := 5 })) = true := by cbv
  have hlength : ∀ id b, steady.block? id = some b → b.body.length < 3 := by
    intro id b hb
    have hid : id < 5 := lt_size_of_block? hb
    interval_cases id <;> cases hb <;> decide
  have hat : ∃ s, after zeros steady 4 = .at 2 s := ⟨_, rfl⟩
  obtain ⟨s, hat⟩ := hat
  obtain ⟨hreached, hkept⟩ := eliminateDeadCode_keeps_runs (by cbv) zeros_typed hlength (by decide)
    hsearch ht (by simpa using hcuts) (steady_runsOrdered 4) hat rfl rfl
  rw [hrun] at hkept
  exact ⟨summary, log, names, w', hsearch, hrun, hremoved, ⟨s, hat⟩, hreached, hkept⟩

end Symbolic
end FlowVerifier
