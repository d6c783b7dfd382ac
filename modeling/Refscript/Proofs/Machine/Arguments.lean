import Refscript.Proofs.Machine.Run
import Refscript.Shell

/-!
# Refscript.Proofs.Machine.Arguments

How a call gets its arguments, for functions that were compiled, built or written down by hand: the
number of parameters, the number of locals and whether there is a list for further arguments need
not go together.

* `Prototype.startable_iff`: which functions no call can be laid out for. Beside those that ask for
  more values than can stand side by side, it is the one that has neither parameters nor locals and
  wants a list.
* `Store.bindArguments_bound`: the slots of a call right after it has started.
* `Machine.start_of_refuses`, `Machine.start_of_unfit`, `Machine.start_of_accepts`: the three things
  that can come of the start of a call.
* `arguments_bound_iff`: when a call is refused, when it starts, and when the machine cannot go on.
-/

namespace Refscript

namespace Prototype

/-- The function does not take so many arguments. -/
def Refuses (p : Prototype) (args : List Value) : Prop :=
  if p.variadic then args.length < p.required else args.length ≠ p.required

/-- The function wants its further arguments as a list, and has neither a parameter nor a local to
hold it. -/
def Slotless (p : Prototype) : Prop :=
  p.variadic = true ∧ p.params = 0 ∧ p.maxLocals = 0

/-- The function asks for more slots, or for a larger operand stack, than there can be. -/
def Oversized (p : Prototype) : Prop :=
  Value.capacity < max p.maxLocals p.params ∨ Value.capacity < p.maxStack

/-- No call of the function can be laid out. -/
def Unfit (p : Prototype) : Prop :=
  p.Slotless ∨ p.Oversized

theorem accepts_iff (p : Prototype) (args : List Value) :
    p.arity.accepts args.length = true ↔ ¬p.Refuses args := by
  unfold arity Refuses
  split
  · simp [Arity.accepts]
  · simp [Arity.accepts]

theorem startable_iff (p : Prototype) : p.startable = true ↔ ¬p.Unfit := by
  have hrest : (!p.variadic || decide (p.required < p.slots)) = true ↔ ¬p.Slotless := by
    unfold Slotless required slots
    by_cases hv : p.variadic = true
    · simp only [hv, Bool.not_true, Bool.false_or, decide_eq_true_eq, if_true, true_and]
      omega
    · simp [hv]
  unfold startable Unfit Oversized
  rw [Bool.and_eq_true, Bool.and_eq_true, hrest, decide_eq_true_eq, decide_eq_true_eq, slots,
    not_or, not_or, Nat.not_lt, Nat.not_lt, and_comm]

end Prototype

namespace Store

/-- The slots of a call right after it has started: each argument in the slot of its parameter, the
further ones in a new list, and null in all other slots. -/
structure Bound (s t : Store) (a : ActivationId) (p : Prototype) (args : List Value) : Prop where
  size : (t.locals a).size = max p.maxLocals p.params
  given : ∀ i, i < p.required → ∃ v, args[i]? = some v ∧ (t.locals a)[i]? = some v
  further : p.variadic = true →
    (t.locals a)[p.required]? = some (.list s.lists.size) ∧
      t.lists = s.lists.push (args.drop p.required).toArray
  others : ∀ i, i < (t.locals a).size → p.required ≤ i → (p.variadic = true → i ≠ p.required) →
    (t.locals a)[i]? = some .null
  lists : p.variadic = false → t.lists = s.lists

theorem getElem?_padded {vs : List Value} {k : Nat} (hk : vs.length = k) (n i : Nat) :
    ((vs ++ List.replicate (n - k) Value.null).toArray)[i]? =
      if i < k then vs[i]? else if i < n then some .null else none := by
  subst hk
  rw [List.getElem?_toArray]
  split
  · rename_i hi
    exact List.getElem?_append_left hi
  · rename_i hi
    rw [List.getElem?_append_right (Nat.le_of_not_lt hi), List.getElem?_replicate]
    split
    · rw [if_pos (by omega)]
    · rw [if_neg (by omega)]

theorem locals_addActivation (s : Store) (locals : Array Value) :
    (s.addActivation locals).2.locals s.activations.size = locals := by
  simp [addActivation, Store.locals, Array.getD_eq_getD_getElem?]

theorem getElem?_bindArguments (s : Store) {p : Prototype} {args : List Value}
    (hargs : ¬p.Refuses args) (hfit : ¬p.Unfit) (i : Nat) : (s.bindArguments p args).1[i]? =
      if i < p.required then args[i]?
      else if p.variadic = true ∧ i = p.required then some (.list s.lists.size)
      else if i < p.slots then some .null else none := by
  by_cases hv : p.variadic = true
  · have hlength : p.required ≤ args.length := by simpa [Prototype.Refuses, hv] using hargs
    have hrest : p.required < p.slots := by
      have := p.startable_iff.2 hfit
      simp only [Prototype.startable, hv, Bool.not_true, Bool.false_or, Bool.and_eq_true] at this
      exact of_decide_eq_true this.2
    have htake : (args.take p.required).length = p.required := by
      rw [List.length_take]
      omega
    have hcount : (args.take p.required ++ [Value.list s.lists.size]).length = p.required + 1 := by
      rw [List.length_append, htake, List.length_singleton]
    simp only [bindArguments, hv, if_true, newList, addList, hcount,
      getElem?_padded hcount, true_and]
    by_cases hi : i < p.required
    · rw [if_pos (by omega), if_pos hi, List.getElem?_append_left (by omega),
        List.getElem?_take_of_lt hi]
    · rw [if_neg hi]
      by_cases heq : i = p.required
      · rw [if_pos (by omega), if_pos heq, List.getElem?_append_right (by omega), htake,
          heq, Nat.sub_self]
        rfl
      · rw [if_neg (by omega), if_neg heq]
  · have hlength : args.length = p.required := by simpa [Prototype.Refuses, hv] using hargs
    simp only [bindArguments, hv, hlength, getElem?_padded hlength, false_and,
      Bool.false_eq_true, if_false]

theorem lists_bindArguments (s : Store) (p : Prototype) (args : List Value) :
    (s.bindArguments p args).2.lists =
      if p.variadic then s.lists.push (args.drop p.required).toArray else s.lists := by
  unfold bindArguments
  split <;> rfl

theorem bindArguments_bound (s : Store) {p : Prototype} {args : List Value}
    (hargs : ¬p.Refuses args) (hfit : ¬p.Unfit) :
    s.Bound ((s.bindArguments p args).2.addActivation (s.bindArguments p args).1).2
      s.activations.size p args := by
  obtain ⟨_, hactivations, hsize⟩ :=
    Machine.bindArguments_spec s p args ((p.accepts_iff args).2 hargs)
    (p.startable_iff.2 hfit)
  have hlocals := locals_addActivation (s.bindArguments p args).2 (s.bindArguments p args).1
  rw [hactivations] at hlocals
  have hget := s.getElem?_bindArguments hargs hfit
  have hlists := s.lists_bindArguments p args
  refine ⟨?_, ?_, ?_, ?_, ?_⟩
  · rw [hlocals, hsize]
    rfl
  · intro i hi
    have hlt : i < args.length := by
      unfold Prototype.Refuses at hargs
      split at hargs <;> omega
    refine ⟨args[i], List.getElem?_eq_getElem hlt, ?_⟩
    rw [hlocals, hget, if_pos hi, List.getElem?_eq_getElem hlt]
  · intro hv
    refine ⟨?_, ?_⟩
    · rw [hlocals, hget, if_neg (Nat.lt_irrefl _), if_pos ⟨hv, rfl⟩]
    · exact hlists.trans (if_pos hv)
  · intro i hi hge hne
    rw [hlocals] at hi ⊢
    rw [hsize] at hi
    rw [hget, if_neg (Nat.not_lt.2 hge), if_neg fun h => hne h.1 h.2, if_pos hi]
  · intro hv
    exact hlists.trans (if_neg (by rw [hv]; exact Bool.false_ne_true))

end Store

namespace Machine

variable {m : Machine} {c : Closure} (this : Option Value) {args : List Value}
  (result : Option Value)

theorem start_of_refuses (hdepth : m.depth < m.limit) (hargs : c.prototype.Refuses args) :
    m.start c this args result =
      m.raise (.badArity c.prototype.displayName c.prototype.arity args.length) := by
  obtain ⟨store, frames, pending, depth, limit⟩ := m
  have hdepth : ¬limit ≤ depth := Nat.not_le.2 hdepth
  have hnot : c.prototype.arity.accepts args.length = false := by
    simpa [hargs] using c.prototype.accepts_iff args
  simp only [start, hdepth, hnot, if_false, Bool.not_false, if_true]

theorem start_of_unfit (hdepth : m.depth < m.limit) (hargs : ¬c.prototype.Refuses args)
    (hunfit : c.prototype.Unfit) : m.start c this args result = .stuck m := by
  obtain ⟨store, frames, pending, depth, limit⟩ := m
  have hdepth : ¬limit ≤ depth := Nat.not_le.2 hdepth
  have hyes := (c.prototype.accepts_iff args).2 hargs
  have hnone : c.prototype.startable = false := by
    simpa [hunfit] using c.prototype.startable_iff
  simp only [start, hdepth, hyes, hnone, if_false, Bool.not_true, Bool.false_eq_true,
    Bool.not_false, if_true]

theorem start_of_accepts (hdepth : m.depth < m.limit) (hargs : ¬c.prototype.Refuses args)
    (hfit : ¬c.prototype.Unfit) :
    ∃ t, m.start c this args result =
      .running ⟨t, ⟨c, this, m.store.activations.size, [], 0, [], result⟩ :: m.frames,
        m.pending, m.depth + 1, m.limit⟩ ∧
        m.store.Bound t m.store.activations.size c.prototype args := by
  obtain ⟨store, frames, pending, depth, limit⟩ := m
  have hdepth : ¬limit ≤ depth := Nat.not_le.2 hdepth
  have hyes := (c.prototype.accepts_iff args).2 hargs
  have hsome := c.prototype.startable_iff.2 hfit
  have hactivations := (bindArguments_spec store c.prototype args hyes hsome).2.1
  refine ⟨_, ?_, store.bindArguments_bound hargs hfit⟩
  simp only [start, hdepth, hyes, hsome, if_false, Bool.not_true, Bool.false_eq_true,
    Store.addActivation, hactivations]

end Machine

/-- Below the limit on calls in progress, a call is refused exactly if the function does not take so
many arguments, and then with the fault that says so. Otherwise it starts, with the arguments in its
slots, unless the function is one that wants a list of further arguments and has no slot for it, or
asks for more slots or stack than there can be: then, and only then, the machine cannot go on. -/
theorem arguments_bound_iff (m : Machine) (c : Closure) (this : Option Value) (args : List Value)
    (result : Option Value) (hdepth : m.depth < m.limit) :
    ((∃ e m', m.start c this args result = .failed e m') ↔ c.prototype.Refuses args) ∧
    (c.prototype.Refuses args → m.start c this args result =
      m.raise (.badArity c.prototype.displayName c.prototype.arity args.length)) ∧
    ((∃ t, m.start c this args result =
      .running ⟨t, ⟨c, this, m.store.activations.size, [], 0, [], result⟩ :: m.frames,
        m.pending, m.depth + 1, m.limit⟩ ∧
        m.store.Bound t m.store.activations.size c.prototype args) ↔
      ¬c.prototype.Refuses args ∧ ¬c.prototype.Unfit) ∧
    (m.start c this args result = .stuck m ↔ ¬c.prototype.Refuses args ∧ c.prototype.Unfit) := by
  by_cases hrefuses : c.prototype.Refuses args
  · have hstart := Machine.start_of_refuses this result hdepth hrefuses
    rw [hstart]
    refine ⟨⟨fun _ => hrefuses, fun _ => ⟨_, _, rfl⟩⟩, fun _ => rfl, ⟨?_, ?_⟩, ⟨?_, ?_⟩⟩
    · rintro ⟨t, h, _⟩
      cases h
    · rintro ⟨h, _⟩
      exact absurd hrefuses h
    · intro h
      cases h
    · rintro ⟨h, _⟩
      exact absurd hrefuses h
  · by_cases hunfit : c.prototype.Unfit
    · have hstart := Machine.start_of_unfit this result hdepth hrefuses hunfit
      rw [hstart]
      refine ⟨⟨?_, fun h => absurd h hrefuses⟩, fun h => absurd h hrefuses, ⟨?_, ?_⟩,
        ⟨?_, fun _ => rfl⟩⟩
      · rintro ⟨e, m', h⟩
        cases h
      · rintro ⟨t, h, _⟩
        cases h
      · rintro ⟨_, h⟩
        exact absurd hunfit h
      · exact fun _ => ⟨hrefuses, hunfit⟩
    · obtain ⟨t, hstart, hbound⟩ := Machine.start_of_accepts this result hdepth hrefuses hunfit
      rw [hstart]
      refine ⟨⟨?_, fun h => absurd h hrefuses⟩, fun h => absurd h hrefuses, ⟨?_, ?_⟩, ⟨?_, ?_⟩⟩
      · rintro ⟨e, m', h⟩
        cases h
      · exact fun _ => ⟨hrefuses, hunfit⟩
      · exact fun _ => ⟨t, rfl, hbound⟩
      · intro h
        cases h
      · rintro ⟨_, h⟩
        exact absurd h hunfit

/-- A function of one parameter and a list for further arguments, with one more local. -/
def Prototype.gathering : Prototype :=
  { (default : Prototype) with
    name := some "gather"
    params := 2
    variadic := true
    maxLocals := 3 }

/-- Four arguments: one in its slot, three in a list, and null in the slot of the local. -/
theorem arguments_bound_iff_gathering :
    (Machine.idle .initial 200).depth < (Machine.idle .initial 200).limit ∧
    ∃ t, (Machine.idle .initial 200).start ⟨.gathering, #[]⟩ none
      [.int 1, .int 2, .int 3, .int 4] none =
        .running ⟨t, [⟨⟨.gathering, #[]⟩, none, Store.initial.activations.size, [], 0, [], none⟩],
          none, 1, 200⟩ ∧
      Store.initial.Bound t Store.initial.activations.size .gathering
        [.int 1, .int 2, .int 3, .int 4] := by
  have hdepth : (Machine.idle .initial 200).depth < (Machine.idle .initial 200).limit := by decide
  have hbound := arguments_bound_iff (Machine.idle .initial 200) ⟨.gathering, #[]⟩ none
    [.int 1, .int 2, .int 3, .int 4] none hdepth
  refine ⟨hdepth, hbound.2.2.1.2 ⟨?_, ?_⟩⟩
  · unfold Prototype.Refuses
    decide
  · unfold Prototype.Unfit Prototype.Slotless Prototype.Oversized Value.capacity
    decide

/-- A builder that was told of a list for further arguments, and of no parameter to hold it. -/
def Builder.unnamedRest : Builder :=
  (({ Builder.new (some "f") with variadic := true }).grow 1).push (.simple .pushNull)

/-- What is built so takes any number of arguments, but no call of it starts or is refused. -/
theorem arguments_unbound_unnamedRest :
    (∀ args, ¬Builder.unnamedRest.build.Refuses args) ∧
      (Machine.idle .initial 200).start ⟨Builder.unnamedRest.build, #[]⟩ none [] none =
        .stuck (Machine.idle .initial 200) :=
  ⟨fun args => Nat.not_lt_zero args.length, rfl⟩

end Refscript
