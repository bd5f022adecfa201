import Mathlib.Data.List.Nodup
import FlowVerifier.Proofs.Flow.Edges

/-!
# Names of blocks

Blocks are found by name in `idOf?`.  In a graph whose blocks have distinct names it
finds the block of the name, whichever way the blocks are stored
(`idOf?_eq_some_iff`).
-/

namespace FlowVerifier
namespace FlowGraph

variable {g g' : FlowGraph} {id : BlockId} {name : String}

/-- No two blocks have the same name. -/
def UniqueNames (g : FlowGraph) : Prop :=
  ∀ i j b c, g.bare? i = some b → g.bare? j = some c → b.name = c.name → i = j

/-- Whether names are distinct can be read off the list of blocks. -/
theorem uniqueNames_of_nodup (h : (g.blocks.map fun (_, b) => b.name).Nodup) : UniqueNames g := by
  intro i j b c hb hc heq
  obtain ⟨b', hb', rfl⟩ := Option.map_eq_some_iff.1 hb
  obtain ⟨c', hc', rfl⟩ := Option.map_eq_some_iff.1 hc
  have hsame := List.inj_on_of_nodup_map h (mem_blocks.2 hb') (mem_blocks.2 hc') heq
  exact congrArg Prod.fst hsame

theorem name_of_idOf? (h : g.idOf? name = some id) : ∃ b, g.bare? id = some b ∧ b.name = name := by
  have hid := List.find?_some h
  cases hb : g.block? id with
  | none => simp [hb] at hid
  | some b =>
      rw [hb] at hid
      exact ⟨b.bare, bare?_of_block? hb, by simpa [Block.bare] using hid⟩

theorem idOf?_isSome {b : Block} (hb : g.bare? id = some b) : (g.idOf? b.name).isSome = true := by
  obtain ⟨b', hb', rfl⟩ := Option.map_eq_some_iff.1 hb
  unfold idOf?
  rw [List.find?_isSome]
  exact ⟨id, List.mem_range.2 (lt_size_of_block? hb'), by simp [hb', Block.bare]⟩

/-- A name finds the block that has it. -/
theorem idOf?_eq_some_iff (h : UniqueNames g) :
    g.idOf? name = some id ↔ ∃ b, g.bare? id = some b ∧ b.name = name := by
  refine ⟨name_of_idOf?, ?_⟩
  rintro ⟨b, hb, rfl⟩
  obtain ⟨i, hi⟩ := Option.isSome_iff_exists.1 (idOf?_isSome hb)
  obtain ⟨c, hc, hname⟩ := name_of_idOf? hi
  rw [hi, h _ _ _ _ hc hb hname]

/-- A name finds nothing if no block has it. -/
theorem idOf?_eq_none_iff :
    g.idOf? name = none ↔ ∀ id b, g.bare? id = some b → b.name ≠ name := by
  constructor
  · rintro hnone id b hb rfl
    have hsome := idOf?_isSome hb
    rw [hnone] at hsome
    exact absurd hsome (by simp)
  · intro hno
    cases hid : g.idOf? name with
    | none => rfl
    | some id =>
        obtain ⟨b, hb, hname⟩ := name_of_idOf? hid
        exact absurd hname (hno id b hb)

/-- Names are found alike in graphs whose blocks have the same names. -/
theorem idOf?_congr (h : UniqueNames g)
    (hnames : ∀ id, (g'.bare? id).map Block.name = (g.bare? id).map Block.name) (name : String) :
    g'.idOf? name = g.idOf? name := by
  have hiff : ∀ id, (∃ b, g'.bare? id = some b ∧ b.name = name) ↔
      ∃ b, g.bare? id = some b ∧ b.name = name := by
    intro id
    rw [← Option.map_eq_some_iff (f := Block.name), hnames, Option.map_eq_some_iff]
  cases hid : g.idOf? name with
  | none =>
      rw [idOf?_eq_none_iff] at hid ⊢
      intro id b hb hname
      obtain ⟨c, hc, hname'⟩ := (hiff id).1 ⟨b, hb, hname⟩
      exact hid id c hc hname'
  | some id =>
      obtain ⟨b, hb, rfl⟩ := (hiff id).2 (name_of_idOf? hid)
      obtain ⟨i, hi⟩ := Option.isSome_iff_exists.1 (idOf?_isSome hb)
      rw [hi, ← (idOf?_eq_some_iff h).2 ((hiff i).1 (name_of_idOf? hi)), hid]

theorem UniqueNames.congr (h : UniqueNames g)
    (hnames : ∀ id b', g'.bare? id = some b' → ∃ b, g.bare? id = some b ∧ b.name = b'.name) :
    UniqueNames g' := by
  intro i j b c hi hj heq
  obtain ⟨b', hb', hbname⟩ := hnames i b hi
  obtain ⟨c', hc', hcname⟩ := hnames j c hj
  exact h _ _ _ _ hb' hc' (by rw [hbname, hcname, heq])

end FlowGraph
end FlowVerifier
