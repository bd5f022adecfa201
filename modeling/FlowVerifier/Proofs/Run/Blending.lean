import FlowVerifier.Proofs.Run.Machine

/-!
# Instructions see the names that they mention

`State.blend names u s` is the state `s` as far as some names go, and `u` beyond them.
An instruction that mentions no other names cannot tell it from `s`: it runs in the
same way, and leaves what lies beyond alone (`State.exec_blend`).

So a piece of a program can be followed in a state in which everything that it does
not mention stays as it is, whatever other routines do to it meanwhile.
-/

namespace FlowVerifier

/-- The variables and arrays that an instruction mentions. -/
def Instruction.names (i : Instruction) : List String :=
  i.readNames ++ i.definedVariable.toList ++
    match i with
    | declareArray name _ _ => [name]
    | _ => []

namespace Run
namespace State

variable {env : Environment} {resolve : String → Option BlockId} {names : List String}
  {u s : State} {x : String} {o : Operand}

/-- The state as far as the names go, and another one beyond them. -/
def blend (names : List String) (u s : State) : State :=
  { s with
    vars := fun x => if x ∈ names then s.vars x else u.vars x
    arrays := fun x => if x ∈ names then s.arrays x else u.arrays x }

@[simp]
theorem blend_stack : (blend names u s).stack = s.stack := rfl

@[simp]
theorem blend_consumed : (blend names u s).consumed = s.consumed := rfl

@[simp]
theorem blend_self : blend names s s = s := by
  simp only [blend, ite_self]

theorem blend_vars (hx : x ∈ names) : (blend names u s).vars x = s.vars x := if_pos hx

theorem blend_arrays (hx : x ∈ names) : (blend names u s).arrays x = s.arrays x := if_pos hx

/-- What agrees on the names is blended to the same variables. -/
theorem blend_vars_congr {s' : State} (h : ∀ x ∈ names, s'.vars x = s.vars x) :
    (blend names u s').vars = (blend names u s).vars := by
  funext x
  simp only [blend]
  split
  · rename_i hx
    exact h x hx
  · rfl

/-- What agrees on the names is blended to the same arrays. -/
theorem blend_arrays_congr {s' : State} (h : ∀ x ∈ names, s'.arrays x = s.arrays x) :
    (blend names u s').arrays = (blend names u s).arrays := by
  funext x
  simp only [blend]
  split
  · rename_i hx
    exact h x hx
  · rfl

theorem blend_bind (hx : x ∈ names) (content : Option Literal) :
    (blend names u s).bind x content = blend names u (s.bind x content) := by
  simp only [bind, blend, State.mk.injEq, and_self, and_true]
  funext y
  by_cases hy : y = x
  · simp only [hy, if_true, if_pos hx]
  · simp only [hy, if_false]

theorem blend_bindArray (hx : x ∈ names) (cells : Cells) :
    (blend names u s).bindArray x cells = blend names u (s.bindArray x cells) := by
  simp only [bindArray, blend, State.mk.injEq, true_and, and_true]
  funext y
  by_cases hy : y = x
  · simp only [hy, if_true, if_pos hx]
  · simp only [hy, if_false]

/-! ## Parts of instructions -/

/-- What comes first does not depend on the state, and the rest runs alike. -/
theorem bind_blend {α : Type} (x : Except Fault α) {f f' : α → Except Fault State}
    (h : ∀ a, f' a = (f a).map (blend names u)) : x >>= f' = (x >>= f).map (blend names u) := by
  cases x with
  | error fault => rfl
  | ok a => exact h a

theorem read_blend (ho : ∀ x, o.var? = some x → x ∈ names) :
    (blend names u s).read o = s.read o := by
  cases o with
  | literal l => rfl
  | var x => simp only [read, blend_vars (ho x rfl)]

theorem readNumber_blend (ho : ∀ x, o.var? = some x → x ∈ names) :
    (blend names u s).readNumber o = s.readNumber o := by
  simp only [readNumber, read_blend ho]

theorem cells_blend (hx : x ∈ names) : (blend names u s).cells x = s.cells x := by
  simp only [cells, blend_arrays hx]

theorem write_blend (hx : x ∈ names) (value : Literal) :
    (blend names u s).write env x value = (s.write env x value).map (blend names u) := by
  simp only [write, blend_vars hx, blend_bind hx]
  split
  · split <;> rfl
  · rfl

theorem receive_blend (hx : x ∈ names) :
    (blend names u s).receive env x = (s.receive env x).map (blend names u) := by
  simp only [receive, blend_consumed, blend_vars hx, blend_bind hx]
  split
  · split <;> rfl
  · rfl

theorem pop_blend {target : Option String} (hx : ∀ x, target = some x → x ∈ names) :
    (blend names u s).pop env target = (s.pop env target).map (blend names u) := by
  unfold pop
  rw [blend_stack]
  split
  · rfl
  · rfl
  · rename_i rest _
    cases target with
    | none => rfl
    | some x =>
        have hstack : { blend names u s with stack := rest } =
            blend names u { s with stack := rest } := rfl
        dsimp only
        rw [hstack]
        split
        · rw [blend_bind (hx x rfl)]
          rfl
        · exact write_blend (hx x rfl) _

theorem declareArray_blend {type : ValueType} (hx : x ∈ names)
    (ho : ∀ y, o.var? = some y → y ∈ names) :
    (blend names u s).declareArray env x type o =
      (s.declareArray env x type o).map (blend names u) := by
  simp only [declareArray, readNumber_blend ho, blend_bindArray hx]
  refine bind_blend _ fun d => ?_
  split
  · split <;> rfl
  · rfl

theorem readArray_blend {array : String} (hx : x ∈ names) (ha : array ∈ names)
    (ho : ∀ y, o.var? = some y → y ∈ names) :
    (blend names u s).readArray env x array o =
      (s.readArray env x array o).map (blend names u) := by
  simp only [readArray, readNumber_blend ho, cells_blend ha]
  refine bind_blend _ fun d => bind_blend _ fun a => bind_blend _ fun j => ?_
  split
  · exact write_blend hx _
  · rfl

theorem writeArray_blend {array : String} {index : Operand} (ha : array ∈ names)
    (hi : ∀ y, index.var? = some y → y ∈ names) (ho : ∀ y, o.var? = some y → y ∈ names) :
    (blend names u s).writeArray env array index o =
      (s.writeArray env array index o).map (blend names u) := by
  simp only [writeArray, readNumber_blend hi, read_blend ho, cells_blend ha, blend_bindArray ha]
  refine bind_blend _ fun d => bind_blend _ fun l => bind_blend _ fun a => ?_
  split
  · rfl
  · exact bind_blend _ fun j => rfl

theorem holds_blend {test : Comparison} (ht : ∀ x ∈ test.readNames, x ∈ names) :
    (blend names u s).holds test = s.holds test := by
  have hl : ∀ x, test.lhs.var? = some x → x ∈ names := fun x hx =>
    ht x (List.mem_append_left _ (Option.mem_toList.2 hx))
  have hr : ∀ x, test.rhs.var? = some x → x ∈ names := fun x hx =>
    ht x (List.mem_append_right _ (Option.mem_toList.2 hx))
  simp only [holds, read_blend hl, read_blend hr]

/-! ## Instructions -/

theorem mem_names_of_operand {i : Instruction} (hi : ∀ x ∈ i.names, x ∈ names)
    (ho : o ∈ i.operands) : ∀ x, o.var? = some x → x ∈ names := fun x hx =>
  hi x (List.mem_append_left _ (List.mem_append_left _ (List.mem_append_left _
    (List.mem_filterMap.2 ⟨o, ho, hx⟩))))

/-- **An instruction** runs alike in states that agree on what it mentions. -/
theorem exec_blend {i : Instruction} (hi : ∀ x ∈ i.names, x ∈ names) :
    (blend names u s).exec env resolve i = (s.exec env resolve i).map (blend names u) := by
  have hop : ∀ {o : Operand}, o ∈ i.operands → ∀ x, o.var? = some x → x ∈ names :=
    fun ho => mem_names_of_operand hi ho
  have htarget : ∀ x, i.definedVariable = some x → x ∈ names := fun x hx =>
    hi x (List.mem_append_left _ (List.mem_append_right _ (by simp [hx])))
  cases i with
  | declare name type =>
      simp only [exec, blend_bind (htarget name rfl)]
      rfl
  | assign target o =>
      simp only [exec, read_blend (hop (o := o) (List.mem_singleton_self _))]
      exact bind_blend _ fun l => write_blend (htarget target rfl) l
  | evaluate target op lhs rhs =>
      simp only [exec, read_blend (hop (o := lhs) (by simp [Instruction.operands])),
        read_blend (hop (o := rhs) (by simp [Instruction.operands]))]
      exact bind_blend _ fun l => bind_blend _ fun m => bind_blend _ fun r =>
        write_blend (htarget target rfl) r
  | print o =>
      simp only [exec, read_blend (hop (o := o) (List.mem_singleton_self _))]
      exact bind_blend _ fun l => rfl
  | input target => exact receive_blend (htarget target rfl)
  | push o =>
      simp only [exec, slot, read_blend (hop (o := o) (List.mem_singleton_self _))]
      cases s.read o <;> rfl
  | pushState block =>
      simp only [exec]
      split <;> rfl
  | pop target => exact pop_blend fun x hx => htarget x hx
  | declareArray name type size =>
      exact declareArray_blend (hi name (by simp [Instruction.names]))
        (hop (List.mem_singleton_self _))
  | readArray target array index =>
      exact readArray_blend (htarget target rfl)
        (hi array (by simp [Instruction.names, Instruction.readNames]))
        (hop (List.mem_singleton_self _))
  | writeArray array index o =>
      exact writeArray_blend (hi array (by simp [Instruction.names, Instruction.readNames]))
        (hop (by simp [Instruction.operands])) (hop (by simp [Instruction.operands]))
  | jumpIf test block => rfl
  | jump block => rfl
  | ret value => rfl

end State
end Run
end FlowVerifier
