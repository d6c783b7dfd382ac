import Refscript.Code.Prototype

/-!
# Refscript.Code.StackCheck

A static check of operand stack heights. Starting at offset 0 with an empty stack, it follows every
path through the code, records the height at each offset and reports the first violation it meets:
too few values, a height above the recorded maximum, paths that join with different heights, a jump
out of the code, a word that is no instruction, or more than one value at the end.

The search visits an offset once, when its height is first recorded, so it ends (`Search.measure`).
-/

namespace Refscript
namespace StackCheck

/-- A violation, with the function's name and the offset at which it was found. -/
inductive Violation where
  | underflow (function : String) (offset : Nat)
  | overflow (function : String) (offset height max : Nat)
  | mismatch (function : String) (offset expected found : Nat)
  | unbalanced (function : String) (height : Nat)
  | badJump (function : String) (offset target : Nat)
  | invalidInstruction (function : String) (offset : Nat) (word : Word)
deriving DecidableEq, Repr

def Violation.message : Violation → String
  | underflow f i => s!"{f}@{i}: operand stack underflow."
  | overflow f i height max => s!"{f}@{i}: height {height} exceeds the recorded maximum {max}."
  | mismatch f i expected found => s!"{f}@{i}: paths join with heights {expected} and {found}."
  | unbalanced f height => s!"{f}: leaves {height} values on the stack."
  | badJump f i target => s!"{f}@{i}: jump to {target} is outside the code."
  | invalidInstruction f i word => s!"{f}@{i}: invalid instruction {Text.hexWord word.bits.toNat}."

/-- How many values an instruction takes from the stack and how many it leaves, whatever control
does next. `none` for a reference of no known kind. -/
def effect? (op : Opcode) (w : Word) : Option (Nat × Nat) :=
  match op with
  | .closeOuters | .jump => some (0, 0)
  | .pop | .jumpTrue | .jumpFalse | .matchOn | .ret => some (1, 0)
  | .dup => some (1, 2)
  | .dup2 => some (2, 4)
  | .and | .or => some (1, 1)
  | .loadLocal | .loadOuter | .loadGlobal | .pushNull | .pushTrue | .pushFalse | .const
  | .smallInt _ | .smallFloat _ | .closure | .makeType | .this => some (0, 1)
  | .storeLocal | .initLocal | .storeOuter | .storeGlobal | .loadField | .prefixOp | .not
  | .deref => some (1, 1)
  | .loadIndex | .storeField | .infixOp | .eq | .neq | .storeDeref => some (2, 1)
  | .storeIndex => some (3, 1)
  | .list | .tuple => some (w.c, 1)
  | .invoke => some (w.c + 1, 1)
  | .invokeMethod => some (w.a + 1, 1)
  | .ref =>
    match RefKind.ofNumber? w.a with
    | some .global | some .loc | some .outer => some (0, 1)
    | some .index => some (2, 1)
    | some .field => some (1, 1)
    | none => none

/-- Where control may go after an instruction at `offset` that leaves the stack at height `after`,
with the height there. `and` and `or` keep the deciding value only when they jump. `none` for a jump
table that does not exist. -/
def successors? (p : Prototype) (op : Opcode) (w : Word) (offset after : Nat) :
    Option (List (Nat × Nat)) :=
  match op with
  | .jump => some [(w.c, after)]
  | .jumpTrue | .jumpFalse => some [(w.c, after), (offset + 1, after)]
  | .and | .or => some [(w.c, after), (offset + 1, after - 1)]
  | .matchOn =>
    match p.tables[w.c]? with
    | some t => some (t.cases.entries.map fun (_, target) => (target, after))
    | none => none
  | .ret => some []
  | _ => some [(offset + 1, after)]

/-- The heights recorded so far, the exit's last, and the offsets whose instruction is still to be
followed. -/
structure Search where
  heights : Array (Option Nat)
  pending : List Nat

/-- Bounds the steps that are left: an offset without a height may still become pending. -/
def Search.measure (s : Search) : Nat :=
  2 * s.heights.count none + s.pending.length

/-- Records that an offset is reached with a height from the instruction at `source`. -/
def Search.reach (p : Prototype) (source offset height : Nat) (s : Search) :
    Except Violation Search :=
  match s.heights[offset]? with
  | none => .error (.badJump p.displayName source offset)
  | some (some expected) =>
    if expected = height then .ok s else .error (.mismatch p.displayName offset expected height)
  | some none =>
    .ok
      { heights := s.heights.setIfInBounds offset (some height)
        pending := if offset < p.code.size then offset :: s.pending else s.pending }

def Search.reachAll (p : Prototype) (source : Nat) :
    List (Nat × Nat) → Search → Except Violation Search
  | [], s => .ok s
  | (offset, height) :: rest, s =>
    match s.reach p source offset height with
    | .error e => .error e
    | .ok s => s.reachAll p source rest

/-- The places an instruction leads to from the height before it, with their heights. -/
def follow (p : Prototype) (offset height : Nat) : Except Violation (List (Nat × Nat)) :=
  let w := p.code.getD offset default
  let invalid : Violation := .invalidInstruction p.displayName offset w
  match w.op? with
  | none => .error invalid
  | some op =>
    match effect? op w with
    | none => .error invalid
    | some (popped, pushed) =>
      if height < popped then .error (.underflow p.displayName offset)
      else
        let after := height - popped + pushed
        if p.maxStack < after then .error (.overflow p.displayName offset after p.maxStack)
        else
          match successors? p op w offset after with
          | none => .error invalid
          | some next => .ok next

/-- Follows the instruction at an offset. -/
def Search.visit (p : Prototype) (offset : Nat) (s : Search) : Except Violation Search :=
  match follow p offset ((s.heights.getD offset none).getD 0) with
  | .error e => .error e
  | .ok next => s.reachAll p offset next

theorem Search.measure_reach {p : Prototype} {source offset height : Nat} {s t : Search}
    (h : s.reach p source offset height = .ok t) : t.measure ≤ s.measure := by
  unfold reach at h
  split at h
  · cases h
  · split at h
    · cases h; exact Nat.le_refl _
    · cases h
  · rename_i hs
    cases h
    obtain ⟨hlt, hnone⟩ := Array.getElem?_eq_some_iff.1 hs
    have hpos : 0 < s.heights.count none := Array.count_pos_iff.2 (hnone ▸ Array.getElem_mem hlt)
    have hcount : (s.heights.setIfInBounds offset (some height)).count none =
        s.heights.count none - 1 := by
      simp [Array.setIfInBounds, hlt, Array.count_set, hnone]
    have hpending : (if offset < p.code.size then offset :: s.pending else s.pending).length
        ≤ s.pending.length + 1 := by split <;> simp
    simp only [measure, hcount]
    omega

theorem Search.measure_reachAll {p : Prototype} {source : Nat} (next : List (Nat × Nat))
    {s t : Search} (h : s.reachAll p source next = .ok t) : t.measure ≤ s.measure := by
  induction next generalizing s with
  | nil => cases h; exact Nat.le_refl _
  | cons q rest ih =>
    obtain ⟨offset, height⟩ := q
    simp only [reachAll] at h
    split at h
    · cases h
    · rename_i u hu
      exact Nat.le_trans (ih h) (measure_reach hu)

theorem Search.measure_visit {p : Prototype} {offset : Nat} {s t : Search}
    (h : s.visit p offset = .ok t) : t.measure ≤ s.measure := by
  unfold visit at h
  split at h
  · cases h
  · exact measure_reachAll _ h

/-- Follows pending offsets, the last one first, until none is left. -/
def Search.run (p : Prototype) (s : Search) : Except Violation Search :=
  match _h : s.pending with
  | [] => .ok s
  | offset :: rest =>
    match _hv : { s with pending := rest : Search }.visit p offset with
    | .error e => .error e
    | .ok t => t.run p
termination_by s.measure
decreasing_by
  have := Search.measure_visit _hv
  simp only [Search.measure, _h, List.length_cons] at this ⊢
  omega

/-- The search of a function before anything is reached. -/
def Search.start (p : Prototype) : Search :=
  ⟨Array.replicate (p.code.size + 1) none, []⟩

/-- The height at every offset that control can reach, the exit's last. -/
def heights (p : Prototype) : Except Violation (Array (Option Nat)) :=
  match (Search.start p).reach p 0 0 0 with
  | .error e => .error e
  | .ok s => (s.run p).map Search.heights

/-- Checks one function, those inside it apart. -/
def checkOne (p : Prototype) : Except Violation Unit :=
  match heights p with
  | .error e => .error e
  | .ok hs =>
    match hs.getD p.code.size none with
    | some height => if 1 < height then .error (.unbalanced p.displayName height) else .ok ()
    | none => .ok ()

mutual

def check : Prototype → Except Violation Unit
  | p@⟨_, _, _, _, _, _, _, _, nested, _, _, _, _⟩ =>
    match checkOne p with
    | .error e => .error e
    | .ok () => checkAll nested

def checkAll : List Prototype → Except Violation Unit
  | [] => .ok ()
  | p :: ps =>
    match check p with
    | .error e => .error e
    | .ok () => checkAll ps

end

end StackCheck

/-- Checks the stack heights of a function and of every function inside it. -/
def Prototype.checkHeights (p : Prototype) : Except StackCheck.Violation Unit :=
  StackCheck.check p

end Refscript
