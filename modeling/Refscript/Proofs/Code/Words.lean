import Refscript.Code.Word

/-!
# Refscript.Proofs.Code.Words

Reading a packed instruction back. The masks and shifts of packing and reading are sums, quotients
and remainders (`toNat_or_shiftLeft`, `op?_eq`, `c_eq`, `a_eq`, `b_eq`). The opcode always survives
packing (`op?_pack`); an operand survives if the instruction fits (`c_pack`, `a_pack`, `b_pack`).

* `Word.insn?`: the instruction that a word holds, with zero in the fields that its layout does not
  have.
* `insn?_pack`, `pack_wide`, `pack_split`: it is the instruction that was packed, and packing it
  again gives the word.
* `packing_faithful`: instructions that fit and the words with operands stand for each other.
-/

namespace Refscript

theorem Opcode.number_lt (op : Opcode) : op.number < 256 := by
  cases op with
  | smallInt k | smallFloat k =>
    have := k.isLt
    simp only [number]
    omega
  | _ => decide

theorem Opcode.toNat_number (op : Opcode) : (UInt32.ofNat op.number).toNat = op.number := by
  have := op.number_lt
  rw [UInt32.toNat_ofNat']
  omega

namespace Word

/-- Fields that do not meet are added. -/
theorem toNat_or_shiftLeft {x y n : UInt32} {k : Nat} (hn : n.toNat < 32)
    (hk : 1 <<< n.toNat = k) (hx : x.toNat < k) (hy : k * y.toNat < 4294967296) :
    (x ||| y <<< n).toNat = x.toNat + k * y.toNat := by
  rw [Nat.one_shiftLeft] at hk
  have hshift : y.toNat <<< n.toNat = k * y.toNat := by
    rw [Nat.shiftLeft_eq, hk, Nat.mul_comm]
  rw [UInt32.toNat_or, UInt32.toNat_shiftLeft, Nat.mod_eq_of_lt hn, Nat.or_comm,
    Nat.mod_eq_of_lt (by rwa [hshift]), ← Nat.shiftLeft_add_eq_or_of_lt (by rwa [hk]), hshift,
    Nat.add_comm]

theorem toNat_low12 (x : UInt32) : (x &&& 0xFFF).toNat = x.toNat % 4096 := by
  rw [UInt32.toNat_and]
  exact Nat.and_two_pow_sub_one_eq_mod _ 12

theorem op?_eq (w : Word) : w.op? = Opcode.ofNumber? (w.bits.toNat % 256) := by
  rw [op?, UInt32.toNat_and]
  exact congrArg _ (Nat.and_two_pow_sub_one_eq_mod _ 8)

theorem c_eq (w : Word) : w.c = w.bits.toNat / 256 := by
  rw [c, UInt32.toNat_shiftRight]
  exact Nat.shiftRight_eq_div_pow _ 8

theorem a_eq (w : Word) : w.a = w.bits.toNat / 256 % 4096 := by
  rw [a, toNat_low12]
  exact congrArg (· % 4096) w.c_eq

theorem b_eq (w : Word) : w.b = w.bits.toNat / 1048576 := by
  have hlt := w.bits.toNat_lt
  have hshift : (w.bits >>> 20).toNat = w.bits.toNat / 1048576 := by
    rw [UInt32.toNat_shiftRight]
    exact Nat.shiftRight_eq_div_pow _ 20
  rw [b, toNat_low12, hshift]
  omega

end Word

namespace Insn

variable {i : Insn}

theorem toNat_pack_wide (hl : i.op.layout = .wide) :
    i.pack.bits.toNat = i.op.number + 256 * (i.a % 16777216) := by
  have hlt := i.op.number_lt
  have hop := i.op.toNat_number
  have ha : (UInt32.ofNat i.a &&& 0xFFFFFF).toNat = i.a % 16777216 := by
    rw [UInt32.toNat_and, UInt32.toNat_ofNat']
    refine (Nat.and_two_pow_sub_one_eq_mod _ 24).trans ?_
    omega
  simp only [pack, hl]
  rw [Word.toNat_or_shiftLeft (n := 8) (k := 256) (by decide) rfl (by omega) (by omega), hop, ha]

theorem toNat_pack_split (hl : i.op.layout = .split) :
    i.pack.bits.toNat = i.op.number + 256 * (i.a % 4096) + 1048576 * (i.b % 4096) := by
  have hlt := i.op.number_lt
  have hop := i.op.toNat_number
  have hlow : ∀ k, (UInt32.ofNat k &&& 0xFFF).toNat = k % 4096 := fun k => by
    rw [Word.toNat_low12, UInt32.toNat_ofNat']
    omega
  have ha := hlow i.a
  have hb := hlow i.b
  have hinner := Word.toNat_or_shiftLeft (x := UInt32.ofNat i.op.number)
    (y := UInt32.ofNat i.a &&& 0xFFF) (n := 8) (k := 256) (by decide) rfl (by omega) (by omega)
  simp only [pack, hl]
  rw [Word.toNat_or_shiftLeft (n := 20) (k := 1048576) (by decide) rfl (by omega) (by omega),
    hinner, hop, ha, hb]

theorem op?_pack (i : Insn) : i.pack.op? = some i.op := by
  have hlt := i.op.number_lt
  have hmod : i.pack.bits.toNat % 256 = i.op.number := by
    cases hl : i.op.layout with
    | none =>
      simp only [pack, hl, i.op.toNat_number]
      omega
    | wide =>
      rw [toNat_pack_wide hl]
      omega
    | split =>
      rw [toNat_pack_split hl]
      omega
  rw [Word.op?_eq, hmod]
  exact i.op.ofNumber?_number

theorem c_pack (hl : i.op.layout = .wide) (hf : i.fits = true) : i.pack.c = i.a := by
  have hlt := i.op.number_lt
  simp only [fits, hl, decide_eq_true_eq] at hf
  rw [Word.c_eq, toNat_pack_wide hl]
  omega

theorem a_pack (hl : i.op.layout = .split) (hf : i.fits = true) : i.pack.a = i.a := by
  have hlt := i.op.number_lt
  simp only [fits, hl, Bool.and_eq_true, decide_eq_true_eq] at hf
  rw [Word.a_eq, toNat_pack_split hl]
  omega

theorem b_pack (hl : i.op.layout = .split) (hf : i.fits = true) : i.pack.b = i.b := by
  have hlt := i.op.number_lt
  simp only [fits, hl, Bool.and_eq_true, decide_eq_true_eq] at hf
  rw [Word.b_eq, toNat_pack_split hl]
  omega

/-- The fields that the layout does not have are zero. -/
def Plain (i : Insn) : Prop :=
  match i.op.layout with
  | .none => i.a = 0 ∧ i.b = 0
  | .wide => i.b = 0
  | .split => True

end Insn

namespace Word

/-- The instruction that a word holds. -/
def insn? (w : Word) : Option Insn :=
  w.op?.map fun op =>
    match op.layout with
    | .none => .simple op
    | .wide => .wide op w.c
    | .split => .split op w.a w.b

variable {w : Word} {op : Opcode}

theorem mod_of_op? (h : w.op? = some op) : w.bits.toNat % 256 = op.number := by
  have hnumber : ∀ k < Opcode.all.size, ∀ o, Opcode.all[k]? = some o → k = o.number := by decide
  rw [op?_eq, Opcode.ofNumber?] at h
  obtain ⟨hlt, _⟩ := Array.getElem?_eq_some_iff.1 h
  exact hnumber _ hlt op h

theorem ext_toNat {v w : Word} (h : v.bits.toNat = w.bits.toNat) : v = w := by
  obtain ⟨v⟩ := v
  obtain ⟨w⟩ := w
  exact congrArg mk (UInt32.toNat.inj h)

theorem fits_wide (hl : op.layout = .wide) : (Insn.wide op w.c).fits = true := by
  have := w.bits.toNat_lt
  have hc : w.c < 16777216 := by
    rw [c_eq]
    omega
  rw [Insn.fits, show (Insn.wide op w.c).op.layout = .wide from hl]
  exact decide_eq_true hc

theorem fits_split (hl : op.layout = .split) : (Insn.split op w.a w.b).fits = true := by
  have := w.bits.toNat_lt
  have hab : w.a < 4096 ∧ w.b < 4096 := by
    rw [a_eq, b_eq]
    omega
  rw [Insn.fits, show (Insn.split op w.a w.b).op.layout = .split from hl]
  exact Bool.and_eq_true_iff.2 ⟨decide_eq_true hab.1, decide_eq_true hab.2⟩

theorem pack_wide (h : w.op? = some op) (hl : op.layout = .wide) : (Insn.wide op w.c).pack = w := by
  have hlt := w.bits.toNat_lt
  have hop := mod_of_op? h
  refine ext_toNat ?_
  rw [Insn.toNat_pack_wide hl]
  simp only [Insn.wide, c_eq]
  omega

theorem pack_split (h : w.op? = some op) (hl : op.layout = .split) :
    (Insn.split op w.a w.b).pack = w := by
  have hlt := w.bits.toNat_lt
  have hop := mod_of_op? h
  refine ext_toNat ?_
  rw [Insn.toNat_pack_split hl]
  simp only [Insn.split, a_eq, b_eq]
  omega

end Word

theorem Insn.insn?_pack {i : Insn} (hf : i.fits = true) (hp : i.Plain) : i.pack.insn? = some i := by
  rw [Word.insn?, i.op?_pack, Option.map_some]
  obtain ⟨op, a, b⟩ := i
  cases hl : op.layout with
  | none =>
    obtain ⟨rfl, rfl⟩ : a = 0 ∧ b = 0 := by simpa only [Plain, hl] using hp
    rfl
  | wide =>
    obtain rfl : b = 0 := by simpa only [Plain, hl] using hp
    simp only [c_pack hl hf, wide]
  | split => simp only [a_pack hl hf, b_pack hl hf, split]

/-- Packing loses nothing of an instruction that fits: its word gives back the opcode and the
operands of the layout, so that different instructions have different words. A word with operands is
the word of what it gives back. -/
theorem packing_faithful :
    (∀ i : Insn, i.fits = true → i.pack.op? = some i.op ∧ (i.op.layout = .wide → i.pack.c = i.a) ∧
      (i.op.layout = .split → i.pack.a = i.a ∧ i.pack.b = i.b)) ∧
    (∀ i j : Insn, i.fits = true → j.fits = true → i.Plain → j.Plain → (i.pack = j.pack ↔ i = j)) ∧
    ∀ (w : Word) (op : Opcode), w.op? = some op →
      (op.layout = .wide → (Insn.wide op w.c).pack = w ∧ (Insn.wide op w.c).fits = true) ∧
      (op.layout = .split → (Insn.split op w.a w.b).pack = w ∧
        (Insn.split op w.a w.b).fits = true) := by
  refine ⟨?_, ?_, ?_⟩
  · intro i hf
    exact ⟨i.op?_pack, fun hl => Insn.c_pack hl hf,
      fun hl => ⟨Insn.a_pack hl hf, Insn.b_pack hl hf⟩⟩
  · intro i j hi hj hpi hpj
    refine ⟨fun h => Option.some.inj ?_, congrArg Insn.pack⟩
    calc
      some i = i.pack.insn? := (Insn.insn?_pack hi hpi).symm
      _ = j.pack.insn? := congrArg Word.insn? h
      _ = some j := Insn.insn?_pack hj hpj
  · intro w op hop
    exact ⟨fun hl => ⟨Word.pack_wide hop hl, Word.fits_wide hl⟩,
      fun hl => ⟨Word.pack_split hop hl, Word.fits_split hl⟩⟩

/-- At the limits of the fields: the farthest jump, and the word of all ones above the number of
`ref`. -/
theorem packing_faithful_limits :
    ((Insn.wide .jump 16777215).fits = true ∧ (Insn.wide .jump 16777215).pack.c = 16777215) ∧
    ((Insn.split .ref 4095 0).pack = (Insn.split .ref 4095 4095).pack ↔
      Insn.split .ref 4095 0 = Insn.split .ref 4095 4095) ∧
    (Word.mk 4294967091).op? = some .ref ∧ (Insn.split .ref 4095 4095).pack =
      Word.mk 4294967091 := by
  refine ⟨⟨rfl, ?_⟩, ?_, rfl, ?_⟩
  · exact (packing_faithful.1 (.wide .jump 16777215) rfl).2.1 rfl
  · exact packing_faithful.2.1 _ _ rfl rfl trivial trivial
  · exact ((packing_faithful.2.2 (Word.mk 4294967091) .ref rfl).2 rfl).1

end Refscript
