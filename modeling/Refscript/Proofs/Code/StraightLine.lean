import Refscript.Proofs.Code.Emission
import Refscript.Proofs.Code.HeightSearch
import Refscript.Proofs.Code.Words

/-!
# Refscript.Proofs.Code.StraightLine

Functions built without any jump. How many values an instruction takes and leaves is written twice,
where the builder emits it and where the check of stack heights reads it back from the packed word;
this module proves that they agree.

* `Build.Emission`: the calls on a builder that emit an instruction after which control goes on
  behind it. `Emission.counts`: each emits one instruction, and counts it as the check does, if its
  operands fit.
* `Builder.StraightLine`: such calls one after the other, with declarations in between, and the
  heights after them.
* `Prototype.Falls`: code in which every instruction leads to the next, with a height for every
  offset. The check then records these heights (`Falls.exists_heights`).
* `Logs.falls`: the function that was built is such code.
-/

namespace Refscript

open StackCheck

/-- How many values a reference is made from. -/
def RefKind.operands : RefKind → Nat
  | global | loc | outer => 0
  | index => 2
  | field => 1

/-- The instruction takes `popped` values and leaves `pushed`, as the check has it, and control goes
on behind it. -/
structure Insn.Acts (i : Insn) (popped pushed : Nat) : Prop where
  effect : i.fits = true → effect? i.op i.pack = some (popped, pushed)
  falls : ∀ p w offset after, successors? p i.op w offset after = some [(offset + 1, after)]

namespace Insn.Acts

variable {i : Insn} {popped pushed : Nat}

theorem fixed (heff : ∀ w, effect? i.op w = some (popped, pushed))
    (hfalls : ∀ p w offset after, successors? p i.op w offset after = some [(offset + 1, after)]) :
    i.Acts popped pushed :=
  ⟨fun _ => heff i.pack, hfalls⟩

theorem list (count : Nat) : (Insn.wide .list count).Acts count 1 :=
  ⟨fun hfits => congrArg (fun n => some (n, 1)) (c_pack rfl hfits), fun _ _ _ _ => rfl⟩

theorem tuple (count : Nat) : (Insn.wide .tuple count).Acts count 1 :=
  ⟨fun hfits => congrArg (fun n => some (n, 1)) (c_pack rfl hfits), fun _ _ _ _ => rfl⟩

theorem invoke (count : Nat) : (Insn.wide .invoke count).Acts (count + 1) 1 :=
  ⟨fun hfits => congrArg (fun n => some (n + 1, 1)) (c_pack rfl hfits), fun _ _ _ _ => rfl⟩

theorem invokeMethod (count name : Nat) :
    (Insn.split .invokeMethod count name).Acts (count + 1) 1 :=
  ⟨fun hfits => congrArg (fun n => some (n + 1, 1)) (a_pack rfl hfits), fun _ _ _ _ => rfl⟩

theorem reference (kind : RefKind) (b : Nat) :
    (Insn.split .ref kind.number b).Acts kind.operands 1 := by
  refine ⟨fun hfits => ?_, fun _ _ _ _ => rfl⟩
  have ha : (Insn.split .ref kind.number b).pack.a = kind.number := a_pack rfl hfits
  show effect? .ref _ = _
  rw [effect?, ha]
  cases kind <;> rfl

end Insn.Acts

namespace Builder

/-- Nothing that has to do with the stack has changed. -/
structure Declares (b c : Builder) : Prop where
  code : c.code = b.code
  height : c.height = b.height
  maxHeight : c.maxHeight = b.maxHeight
  oversized : c.oversized = b.oversized

/-- One instruction was added that acts on the stack as the builder has counted. -/
structure Grows (b c : Builder) (i : Insn) (popped pushed : Nat) : Prop where
  acts : i.Acts popped pushed
  enough : popped ≤ b.height
  code : c.code = b.code.push i
  height : c.height = b.height - popped + pushed
  maxHeight : c.maxHeight = max b.maxHeight c.height
  oversized : c.oversized = (b.oversized || !i.fits)

variable {b c d : Builder} {i : Insn} {popped pushed : Nat}

theorem Grows.after (hb : b.Declares c) (h : c.Grows d i popped pushed) :
    b.Grows d i popped pushed := by
  refine ⟨h.acts, hb.height ▸ h.enough, hb.code ▸ h.code, hb.height ▸ h.height,
    hb.maxHeight ▸ h.maxHeight, ?_⟩
  rw [← hb.oversized]
  exact h.oversized

theorem declares_addConstant (b : Builder) (c : Constant) : b.Declares (b.addConstant c).2 := by
  rw [addConstant_eq]
  exact ⟨rfl, rfl, rfl, rfl⟩

theorem declares_addLocal {name : String} {slot : Nat} (h : b.addLocal? name = some (slot, c)) :
    b.Declares c := by
  unfold addLocal? at h
  split at h
  · cases h
  · cases h
    exact ⟨rfl, rfl, rfl, rfl⟩

end Builder

namespace Build

/-- The calls that emit an instruction after which control goes on behind it. -/
inductive Emission : Build Unit → Prop where
  | pop : Emission pop
  | dup : Emission dup
  | dup2 : Emission dup2
  | closeOuters (slot : Nat) : Emission (closeOuters slot)
  | loadLocal (slot : Nat) : Emission (loadLocal slot)
  | storeLocal (slot : Nat) : Emission (storeLocal slot)
  | initLocal (slot : Nat) : Emission (initLocal slot)
  | loadOuter (position : Nat) : Emission (loadOuter position)
  | storeOuter (position : Nat) : Emission (storeOuter position)
  | loadGlobal (name : String) : Emission (loadGlobal name)
  | storeGlobal (name : String) : Emission (storeGlobal name)
  | loadIndex : Emission loadIndex
  | storeIndex : Emission storeIndex
  | loadField (name : String) : Emission (loadField name)
  | storeField (name : String) : Emission (storeField name)
  | null : Emission null
  | bool (b : Bool) : Emission (bool b)
  | int (i : Int64) : Emission (int i)
  | float (d : Double) : Emission (float d)
  | string (s : String) : Emission (string s)
  | list (count : Nat) : Emission (list count)
  | tuple (count : Nat) : Emission (tuple count)
  | closure (p : Prototype) : Emission (closure p)
  | makeType (t : TypeInfo) : Emission (makeType t)
  | this : Emission this
  | invoke (count : Nat) : Emission (invoke count)
  | invokeMethod (name : String) (count : Nat) : Emission (invokeMethod name count)
  | prefixOp (symbol : String) : Emission (prefixOp symbol)
  | infixOp (symbol : String) : Emission (infixOp symbol)
  | eq (negated : Bool) : Emission (eq negated)
  | not : Emission not
  | refLocal (slot : Nat) : Emission (refLocal slot)
  | refOuter (position : Nat) : Emission (refOuter position)
  | refGlobal (name : String) : Emission (refGlobal name)
  | refIndex : Emission refIndex
  | refField (name : String) : Emission (refField name)
  | deref : Emission deref
  | storeDeref : Emission storeDeref

/-- The call adds one instruction that acts on the stack as the builder counts, if it does not
fail. -/
def Counts (x : Build Unit) : Prop :=
  ∀ b c, x b = .ok () c → ∃ i popped pushed, b.Grows c i popped pushed

variable {i : Insn} {f : Nat → Insn} {popped pushed : Nat}

theorem counts_emitUnit (h : i.Acts popped pushed) : Counts (emitUnit popped pushed i) := by
  intro b c hrun
  by_cases henough : popped ≤ b.height
  · rw [Lower.emitUnit_run henough] at hrun
    obtain ⟨-, rfl⟩ := EStateM.Result.ok.inj hrun
    exact ⟨i, popped, pushed, h, henough, rfl, rfl, rfl, rfl⟩
  · have hshrink : shrink popped b = .error (.heightBelowZero b.displayName) b := by
      show (if b.height < popped then throw (.heightBelowZero b.displayName)
        else set { b with height := _ } : Build Unit) b = _
      rw [if_pos (Nat.lt_of_not_le henough)]
      rfl
    simp [emitUnit, emit, bind, EStateM.bind, hshrink] at hrun

theorem counts_declared {x : Build Nat} (hx : ∀ b, ∃ k c, x b = .ok k c ∧ b.Declares c)
    (h : ∀ k, (f k).Acts popped pushed) : Counts (do emitUnit popped pushed (f (← x))) := by
  intro b d hrun
  obtain ⟨k, c, hk, hc⟩ := hx b
  have hnext : (do emitUnit popped pushed (f (← x))) b = emitUnit popped pushed (f k) c := by
    simp only [bind, EStateM.bind, hk]
  rw [hnext] at hrun
  obtain ⟨i, popped, pushed, hgrows⟩ := counts_emitUnit (h k) c d hrun
  exact ⟨i, popped, pushed, hgrows.after hc⟩

theorem counts_pooled (c : Constant) (h : ∀ k, (f k).Acts popped pushed) :
    Counts (do emitUnit popped pushed (f (← constant c))) :=
  counts_declared (fun b => ⟨_, _, rfl, b.declares_addConstant c⟩) h

theorem Emission.counts {x : Build Unit} (h : Emission x) : Counts x := by
  cases h with
  | pop | dup | dup2 | loadIndex | storeIndex | null | this | not | deref | storeDeref =>
    exact counts_emitUnit (.fixed (fun _ => rfl) fun _ _ _ _ => rfl)
  | closeOuters | loadLocal | storeLocal | initLocal | loadOuter | storeOuter =>
    exact counts_emitUnit (.fixed (fun _ => rfl) fun _ _ _ _ => rfl)
  | loadGlobal | storeGlobal | loadField | storeField | string | prefixOp | infixOp =>
    exact counts_pooled _ fun _ => .fixed (fun _ => rfl) fun _ _ _ _ => rfl
  | bool b => cases b <;> exact counts_emitUnit (.fixed (fun _ => rfl) fun _ _ _ _ => rfl)
  | eq negated => cases negated <;> exact counts_emitUnit (.fixed (fun _ => rfl) fun _ _ _ _ => rfl)
  | int i =>
    unfold Build.int
    split
    · exact counts_emitUnit (.fixed (fun _ => rfl) fun _ _ _ _ => rfl)
    · exact counts_pooled _ fun _ => .fixed (fun _ => rfl) fun _ _ _ _ => rfl
  | float d =>
    unfold Build.float
    split
    · exact counts_emitUnit (.fixed (fun _ => rfl) fun _ _ _ _ => rfl)
    · exact counts_pooled _ fun _ => .fixed (fun _ => rfl) fun _ _ _ _ => rfl
  | list count => exact counts_emitUnit (.list count)
  | tuple count => exact counts_emitUnit (.tuple count)
  | invoke count => exact counts_emitUnit (.invoke count)
  | invokeMethod name count => exact counts_pooled _ (.invokeMethod count)
  | closure p | makeType t =>
    exact counts_declared (fun b => ⟨_, _, rfl, rfl, rfl, rfl, rfl⟩) fun _ =>
      .fixed (fun _ => rfl) fun _ _ _ _ => rfl
  | refLocal slot => exact counts_emitUnit (.reference .loc slot)
  | refOuter position => exact counts_emitUnit (.reference .outer position)
  | refIndex => exact counts_emitUnit (.reference .index 0)
  | refGlobal name => exact counts_pooled _ (.reference .global)
  | refField name => exact counts_pooled _ (.reference .field)

end Build

/-- Every instruction leads to the next one, and the heights at the offsets follow from what the
instructions take and leave. -/
structure Prototype.Falls (p : Prototype) (height : Nat → Nat) : Prop where
  zero : height 0 = 0
  insn : ∀ {k w}, p.code[k]? = some w → ∃ op popped pushed, w.op? = some op ∧
    effect? op w = some (popped, pushed) ∧
    popped ≤ height k ∧ height (k + 1) = height k - popped + pushed ∧
    ∀ after, successors? p op w k after = some [(k + 1, after)]
  le : ∀ k, height k ≤ p.maxStack

namespace Prototype.Falls

variable {p : Prototype} {height : Nat → Nat}

theorem follow_eq (h : p.Falls height) {k : Nat} (hk : k < p.code.size) :
    follow p k (height k) = .ok [(k + 1, height (k + 1))] := by
  obtain ⟨op, popped, pushed, hop, heff, henough, hnext, hfalls⟩ :=
    h.insn (Array.getElem?_eq_getElem hk)
  refine (follow_ok_iff (Array.getElem?_eq_getElem hk)).2
    ⟨op, popped, pushed, hop, heff, henough, ?_, ?_⟩
  · rw [← hnext]
    exact h.le (k + 1)
  · rw [hfalls, hnext]

theorem consistent (h : p.Falls height) : Consistent p ∧ ∀ k n, Reached p k n → height k = n := by
  refine Consistent.of_labelling h.zero fun k hk => ⟨_, h.follow_eq hk, fun t ht => ?_⟩
  obtain rfl := List.mem_singleton.1 ht
  exact ⟨hk, rfl⟩

theorem reached (h : p.Falls height) {k : Nat} (hk : k ≤ p.code.size) : Reached p k (height k) := by
  induction k with
  | zero =>
    rw [h.zero]
    exact .start
  | succ k ih => exact .next (ih (Nat.le_of_lt hk)) hk (h.follow_eq hk) (List.mem_singleton.2 rfl)

theorem exists_heights (h : p.Falls height) :
    ∃ recorded, heights p = .ok recorded ∧ ∀ k ≤ p.code.size,
      recorded[k]? = some (some (height k)) := by
  obtain ⟨recorded, hrecorded⟩ := heights_ok_iff.2 h.consistent.1
  exact ⟨recorded, hrecorded, fun k hk => (getElem?_heights_iff hrecorded k _).2 (h.reached hk)⟩

theorem checkOne_iff (h : p.Falls height) : checkOne p = .ok () ↔ height p.code.size ≤ 1 := by
  rw [checkOne_ok_iff]
  constructor
  · exact fun hcheck => hcheck.2 _ (h.reached (Nat.le_refl _))
  · exact fun hle => ⟨h.consistent.1, fun n hn => h.consistent.2 _ n hn ▸ hle⟩

end Prototype.Falls

namespace Builder

/-- `c` comes from `b` by calls that emit an instruction each, with declarations in between. The
list has the heights after these calls. -/
inductive StraightLine (b : Builder) : List Nat → Builder → Prop where
  | refl : StraightLine b [] b
  | emission {hs : List Nat} {c d : Builder} {x : Build Unit} :
      StraightLine b hs c → Build.Emission x → x c = .ok () d → StraightLine b (hs ++ [d.height]) d
  | declaration {hs : List Nat} {c d : Builder} : StraightLine b hs c → c.Declares d →
      StraightLine b hs d

/-- The height at an offset of a function whose instructions leave these heights. -/
def heightAt (hs : List Nat) (k : Nat) : Nat :=
  (0 :: hs).getD k 0

variable {b c d : Builder} {hs hs' : List Nat}

theorem heightAt_append {k : Nat} (hk : k ≤ hs.length) :
    heightAt (hs ++ hs') k = heightAt hs k := by
  have hlt : k < (0 :: hs).length := Nat.lt_succ_of_le hk
  simp only [heightAt, ← List.cons_append, List.getD_eq_getElem?_getD,
    List.getElem?_append_left hlt]

theorem heightAt_last (hs : List Nat) (h : Nat) : heightAt (hs ++ [h]) (hs.length + 1) = h := by
  simp [heightAt]

theorem StraightLine.trans (h : StraightLine b hs c) (h' : StraightLine c hs' d) :
    StraightLine b (hs ++ hs') d := by
  induction h' with
  | refl => simpa using h
  | emission _ hx hrun ih =>
    rw [← List.append_assoc]
    exact ih.emission hx hrun
  | declaration _ hdeclares ih => exact ih.declaration hdeclares

/-- What a builder without jumps has: an instruction for every height, and each of them takes and
leaves what is between its own height and the next. -/
structure Logs (hs : List Nat) (b : Builder) : Prop where
  size : b.code.size = hs.length
  height : b.height = heightAt hs hs.length
  maxHeight : b.maxHeight = hs.foldl max 0
  le : ∀ k, heightAt hs k ≤ b.maxHeight
  insn : ∀ {k : Nat} {i : Insn}, b.code[k]? = some i → ∃ popped pushed, i.Acts popped pushed ∧
    popped ≤ heightAt hs k ∧ heightAt hs (k + 1) = heightAt hs k - popped + pushed
  fits : b.oversized = false → ∀ {k : Nat} {i : Insn}, b.code[k]? = some i → i.fits = true

namespace Logs

theorem new (name : Option String) : Logs [] (.new name) := by
  refine ⟨rfl, rfl, rfl, fun k => ?_, fun hi => ?_, fun _ _ _ hi => ?_⟩
  · cases k <;> simp [heightAt]
  · simp [Builder.new] at hi
  · simp [Builder.new] at hi

theorem declares (h : Logs hs b) (hb : b.Declares c) : Logs hs c := by
  refine ⟨?_, hb.height ▸ h.height, hb.maxHeight ▸ h.maxHeight, hb.maxHeight ▸ h.le, fun hi => ?_,
    fun ho _ _ hi => ?_⟩
  · rw [hb.code]
    exact h.size
  · exact h.insn (hb.code ▸ hi)
  · exact h.fits (hb.oversized ▸ ho) (hb.code ▸ hi)

theorem grows {i : Insn} {popped pushed : Nat} (h : Logs hs b) (hc : b.Grows c i popped pushed) :
    Logs (hs ++ [c.height]) c := by
  have hlast : heightAt (hs ++ [c.height]) (hs.length + 1) = c.height := heightAt_last hs c.height
  have hpushed : ∀ {k : Nat} {j : Insn}, c.code[k]? = some j → b.code[k]? = some j ∨
      (k = hs.length ∧ j = i) := by
    intro k j hj
    rw [hc.code, Array.getElem?_push, h.size] at hj
    split at hj
    · exact .inr ⟨‹_›, (Option.some.inj hj).symm⟩
    · exact .inl hj
  refine ⟨?_, ?_, ?_, fun k => ?_, fun {k j} hj => ?_, fun ho {k j} hj => ?_⟩
  · simp [hc.code, h.size]
  · rw [List.length_append, List.length_singleton, hlast]
  · rw [hc.maxHeight, h.maxHeight, List.foldl_append]
    rfl
  · rw [hc.maxHeight]
    rcases Nat.lt_trichotomy k (hs.length + 1) with hk | rfl | hk
    · rw [heightAt_append (Nat.le_of_lt_succ hk)]
      exact Nat.le_trans (h.le k) (Nat.le_max_left _ _)
    · rw [hlast]
      exact Nat.le_max_right _ _
    · have hout : heightAt (hs ++ [c.height]) k = 0 := by simp [heightAt, Nat.not_lt.2 hk]
      rw [hout]
      exact Nat.zero_le _
  · rcases hpushed hj with hj | ⟨rfl, rfl⟩
    · obtain ⟨hlt, -⟩ := Array.getElem?_eq_some_iff.1 hj
      rw [h.size] at hlt
      rw [heightAt_append (Nat.le_of_lt hlt), heightAt_append hlt]
      exact h.insn hj
    · rw [hlast, heightAt_append (Nat.le_refl _), ← h.height]
      exact ⟨popped, pushed, hc.acts, hc.enough, hc.height⟩
  · rw [hc.oversized, Bool.or_eq_false_iff, Bool.not_eq_false'] at ho
    rcases hpushed hj with hj | ⟨rfl, rfl⟩
    · exact h.fits ho.1 hj
    · exact ho.2

end Logs

theorem StraightLine.logs {name : Option String} (h : StraightLine (.new name) hs b) :
    Logs hs b := by
  induction h with
  | refl => exact .new name
  | emission _ hx hrun ih =>
    obtain ⟨i, popped, pushed, hgrows⟩ := hx.counts _ _ hrun
    exact ih.grows hgrows
  | declaration _ hdeclares ih => exact ih.declares hdeclares

theorem Logs.falls (h : Logs hs b) (hfits : b.oversized = false) : b.build.Falls (heightAt hs) := by
  refine ⟨rfl, fun {k w} hw => ?_, h.le⟩
  have hw' : (b.code.map Insn.pack)[k]? = some w := hw
  rw [Array.getElem?_map] at hw'
  obtain ⟨i, hi, rfl⟩ := Option.map_eq_some_iff.1 hw'
  obtain ⟨popped, pushed, hacts, henough, hnext⟩ := h.insn hi
  exact ⟨i.op, popped, pushed, i.op?_pack, hacts.effect (h.fits hfits hi), henough, hnext,
    hacts.falls _ _ _⟩

end Builder

end Refscript
