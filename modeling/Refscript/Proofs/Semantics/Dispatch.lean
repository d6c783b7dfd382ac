import Refscript.Proofs.Code.Compiled
import Refscript.Proofs.Machine.Definition
import Refscript.Proofs.Number.Exact
import Refscript.Proofs.Semantics.Branching

/-!
# Refscript.Proofs.Semantics.Dispatch

Which case of a `match` is taken. The table lists literals by keys, and a double is looked up as an
integer, while `==` turns the integer into a double. The two agree up to `2 ^ 53`; beyond it, `==`
cannot tell neighbouring integers from the double between them, and the case is taken for its exact
value alone.

* `MatchKey.of?_eq_some_iff`: when the key of a value is that of a literal.
* `MatchCode`: the code of a `match` and of its cases.
* `match_takes_case`: the case that is taken.
-/

namespace Refscript

open Lower (matchKey? Laid Shape orStop)

/-- The literal that a key stands for. -/
def MatchKey.literal? : MatchKey → Option Value
  | null => some .null
  | bool b => some (.bool b)
  | int i => some (.int i)
  | str s => some (.str s)
  | default => none

/-- A double has exactly the value of an integer if that is beyond `2 ^ 53`. -/
def Value.Exactly : Value → Value → Prop
  | .num (.float d), .num (.int i) => Double.exactBound < i.toInt.natAbs → d.Stands i.toInt
  | _, _ => True

/-- The value is a double without a fraction beyond the 64-bit integers, and the literal is the last
of them. -/
def Value.Saturates : Value → Value → Prop
  | .num (.float d), .num (.int i) => d.isIntegral = true ∧
      (d.truncate < Int64.minValue.toInt ∧ i = Int64.minValue ∨ Int64.maxValue.toInt < d.truncate ∧
        i = Int64.maxValue)
  | _, _ => False

theorem Double.clamp_eq_iff {z : Int} {i : Int64}
    (hlow : z < Int64.minValue.toInt → i ≠ Int64.minValue)
    (hhigh : Int64.maxValue.toInt < z → i ≠ Int64.maxValue) : clamp z = i ↔ z = i.toInt := by
  have hi := i.minValue_le_toInt
  have hi' := i.toInt_le
  unfold clamp
  split
  · constructor
    · rintro rfl
      exact Int.le_antisymm ‹_› (Int.not_lt.1 fun hlt => hlow hlt rfl)
    · rintro rfl
      exact Int64.toInt_inj.1 (Int.le_antisymm hi ‹_›)
  · split
    · constructor
      · rintro rfl
        exact Int.le_antisymm (Int.not_lt.1 fun hlt => hhigh hlt rfl) ‹_›
      · rintro rfl
        exact Int64.toInt_inj.1 (Int.le_antisymm ‹_› hi')
    · rename_i hge hle
      have hz : (Int64.ofInt z).toInt = z := by
        refine Int64.toInt_ofInt_of_le ?_ ?_
        · rw [← Int64.toInt_minValue]
          omega
        · have hmax : Int64.maxValue.toInt = 9223372036854775807 := rfl
          omega
      rw [← Int64.toInt_inj, hz]

theorem MatchKey.of?_float_iff {d : Double} {i : Int64}
    (h : ¬Value.Saturates (.num (.float d)) (.num (.int i))) :
    of? (.num (.float d)) = some (.int i) ↔ d.Stands i.toInt := by
  simp only [of?, Double.Stands]
  by_cases hd : d.isIntegral = true
  · have hfinite := Double.isFinite_of_isIntegral hd
    have hclamp : d.toInt64 Double.truncate = Double.clamp d.truncate := by
      rw [Double.toInt64, Double.isNaN_of_isFinite hfinite, Double.isInfinite_of_isFinite hfinite]
      simp
    rw [hfinite, hd, Bool.and_true, if_pos rfl, hclamp, Option.some_inj, MatchKey.int.injEq]
    rw [Double.clamp_eq_iff (fun hlt heq => h ⟨hd, .inl ⟨hlt, heq⟩⟩) fun hlt heq =>
      h ⟨hd, .inr ⟨hlt, heq⟩⟩]
    simp
  · simp [hd]

/-- The key of a value is that of a literal if and only if the two are equal, and exactly so beyond
`2 ^ 53`. -/
theorem MatchKey.of?_eq_some_iff (s : Store) {u v : Value} {key : MatchKey}
    (hkey : key.literal? = some v) (h : ¬u.Saturates v) :
    of? u = some key ↔ s.equal u v = true ∧ u.Exactly v := by
  unfold literal? at hkey
  split at hkey
  all_goals cases hkey
  case h_3 i =>
    -- an integer: only numbers are equal to it
    cases u with
    | num n =>
      cases n with
      | int j => simp [of?, Store.equal, Store.equalIn, Number.eq, Value.Exactly, Value.int]
      | float d =>
        rw [Value.int, MatchKey.of?_float_iff h]
        simp only [Store.equal, Store.equalIn, Value.Exactly]
        constructor
        · exact fun hd => ⟨Number.eq_int_of_stands hd, fun _ => hd⟩
        · rintro ⟨heq, hexact⟩
          by_cases hi : i.toInt.natAbs ≤ Double.exactBound
          · exact Number.stands_of_eq_int hi heq
          · exact hexact (Nat.lt_of_not_le hi)
    | _ => simp [of?, Store.equal, Store.equalIn, Value.int]
  all_goals cases u with
    | num n => cases n <;> simp [of?, Store.equal, Store.equalIn]
    | _ => simp [of?, Store.equal, Store.equalIn, Value.Exactly]

theorem eq_of_mem_zip {α : Type} {as : List α} {starts : List Nat} (hnodup : starts.Nodup) {a b : α}
    {k : Nat} (ha : (a, k) ∈ as.zip starts) (hb : (b, k) ∈ as.zip starts) : a = b := by
  induction as generalizing starts with
  | nil => cases ha
  | cons c as ih =>
    cases starts with
    | nil => cases ha
    | cons j starts =>
      obtain ⟨hj, hnodup⟩ := List.nodup_cons.1 hnodup
      rw [List.zip_cons_cons, List.mem_cons, Prod.mk.injEq] at ha hb
      rcases ha with ⟨rfl, rfl⟩ | ha <;> rcases hb with ⟨rfl, hk⟩ | hb
      · rfl
      · exact absurd (List.of_mem_zip hb).2 hj
      · exact absurd (hk ▸ (List.of_mem_zip ha).2) hj
      · exact ih hnodup ha hb

theorem exists_mem_zip {α : Type} {as : List α} {starts : List Nat}
    (hlength : starts.length = as.length) {a : α} (ha : a ∈ as) : ∃ k, (a, k) ∈ as.zip starts := by
  induction as generalizing starts with
  | nil => cases ha
  | cons b as ih =>
    cases starts with
    | nil => cases hlength
    | cons j starts =>
      rcases List.mem_cons.1 ha with rfl | ha
      · exact ⟨j, List.mem_cons_self⟩
      · obtain ⟨k, hk⟩ := ih (Nat.succ.inj hlength) ha
        exact ⟨k, List.mem_cons_of_mem _ hk⟩

/-- The code of cases in the function: each starts where `starts` says and ends with a jump to
`stop`. -/
structure CaseCode (P : Prototype) (cases : List (Arm Node)) (starts : List Nat) (stop : Nat) :
    Prop where
  length : starts.length = cases.length
  distinct : starts.Nodup
  body : ∀ {a start}, (a, start) ∈ cases.zip starts → ∃ e, Laid a.body P start e ∧
    P.Carries e (.wide .jump stop)

namespace Lower

theorem cases_of_arms {k stop i j : Nat} {P : Prototype} {table table' : Table MatchKey Nat}
    {cases : List (Arm Node)} {taken : List MatchKey}
    (h : Shape.Arms k stop P table cases (cases.map fun a => Laid a.body) table' i j)
    (hkeyed : Keyed taken cases) (hkeys : ∀ key, table.contains key = true ↔ key ∈ taken)
    (hle : ∀ a ∈ cases, ∀ i j, Laid a.body P i j → i ≤ j) :
    ∃ starts, CaseCode P cases starts stop ∧ i ≤ j ∧ (∀ start ∈ starts, i ≤ start ∧ start < j) ∧
      (∀ {a start}, (a, start) ∈ cases.zip starts → ∃ key, matchKey? a.pattern = some key ∧
        table'.get? key = some start) ∧
      ∀ {key start}, table'.get? key = some start → table.get? key = some start ∨
        ∃ a, (a, start) ∈ cases.zip starts ∧ matchKey? a.pattern = some key := by
  induction cases generalizing table taken i with
  | nil =>
    cases h
    refine ⟨[], ⟨rfl, .nil, ?_⟩, Nat.le_refl _, ?_, ?_, fun h => .inl h⟩
    · exact fun h => (List.not_mem_nil h).elim
    · exact fun _ h => (List.not_mem_nil h).elim
    · exact fun h => (List.not_mem_nil h).elim
  | cons a as ih =>
    obtain ⟨key, hkey, hnot, hkeyed⟩ := hkeyed
    obtain ⟨hlea, hle⟩ := List.forall_mem_cons.1 hle
    cases h with
    | skip hfault _ => exact absurd ((hkeys key).1 (hfault key hkey)) hnot
    | @take _ _ _ _ _ _ key' _ m _ hkey' _ hbody hjump has =>
      cases hkey.symm.trans hkey'
      have hkeys' : ∀ key', (table.insert key i).contains key' = true ↔ key' ∈ key :: taken :=
        fun key' => by
        rw [Table.contains_insert, List.mem_cons, hkeys]
      obtain ⟨starts, hcode, hij, hbounds, hlisted, honly⟩ := ih has hkeyed hkeys' hle
      have him := hlea i m hbody
      refine ⟨i :: starts, ⟨?_, ?_, ?_⟩, by omega, ?_, ?_, ?_⟩
      · rw [List.length_cons, List.length_cons, hcode.length]
      · refine List.nodup_cons.2 ⟨fun hmem => ?_, hcode.distinct⟩
        have := (hbounds i hmem).1
        omega
      · intro b start hmem
        rcases List.mem_cons.1 hmem with heq | hmem
        · cases heq
          exact ⟨m, hbody, hjump.2.1⟩
        · exact hcode.body hmem
      · refine List.forall_mem_cons.2 ⟨by omega, fun start hstart => ?_⟩
        have := hbounds start hstart
        omega
      · intro b start hmem
        rcases List.mem_cons.1 hmem with heq | hmem
        · cases heq
          exact ⟨key, hkey, get?_of_arms has (by rw [Table.get?_insert, if_pos rfl])⟩
        · exact hlisted hmem
      · intro key' start hget
        rcases honly hget with hold | ⟨b, hmem, hb⟩
        · rw [Table.get?_insert] at hold
          split at hold
          · rename_i heq
            cases hold
            exact .inr ⟨a, List.mem_cons_self, heq ▸ hkey⟩
          · exact .inl hold
        · exact .inr ⟨b, List.mem_cons_of_mem _ hmem, hb⟩

theorem Laid.le {n : Node} {r : Bool} {P : Prototype} {i j : Nat} (h : Laid n P i j)
    (hm : Marking.Marks r n) : i ≤ j := by
  obtain ⟨s, t, hs, hrun, _, rfl, rfl⟩ := h
  obtain ⟨_, t', hrun', ht⟩ :=
    (realizes_node n r hm s.builder.height).balances.emits s hs trivial rfl
  rw [hrun] at hrun'
  cases hrun'
  exact ht.leads.keeps.size

end Lower

/-- The literal of a case; the default has none. -/
def Arm.literal? (a : Arm Node) : Option Value :=
  (matchKey? a.pattern).bind MatchKey.literal?

/-- The code of a `match` in the function: the scrutinee from `i` on, the cases, and the instruction
at `site` that goes to one of them, or to `fallback` if no literal is meant. -/
structure MatchCode (P : Prototype) (required : Bool) (x : Node) (cases : List (Arm Node))
    (i site : Nat) (starts : List Nat) (fallback stop : Nat) :
    Prop extends CaseCode P cases starts stop where
  scrutinee : Laid x P i site
  /-- The default is the one that is written or, without it, null if a value is wanted. -/
  default : (∃ a, (a, fallback) ∈ cases.zip starts ∧ a.pattern = none) ∨
    (∀ a ∈ cases, a.pattern ≠ none) ∧ fallback ∉ starts ∧
      if required then P.Carries fallback (.simple .pushNull) ∧ fallback + 1 = stop
        else fallback = stop

/-- The instruction at `site` has a table that lists the cases at their starts, and `fallback` for
all other values. -/
structure MatchTable (P : Prototype) (cases : List (Arm Node)) (site : Nat) (starts : List Nat)
    (fallback : Nat) (table : Table MatchKey Nat) : Prop where
  instruction : ∃ index, P.Carries site (.wide .matchOn index) ∧ P.tables[index]? = some ⟨table⟩
  listed : ∀ {a start}, (a, start) ∈ cases.zip starts → ∃ key, matchKey? a.pattern = some key ∧
    table.get? key = some start
  default : table.get? .default = some fallback
  only : ∀ {key start}, key ≠ .default → table.get? key = some start →
    ∃ a, (a, start) ∈ cases.zip starts ∧ matchKey? a.pattern = some key

theorem matchKey?_eq_default_iff {pattern : Option Node} :
    matchKey? pattern = some .default ↔ pattern = none := by
  cases pattern with
  | none => simp [matchKey?]
  | some n =>
    obtain ⟨_, _, e⟩ := n
    cases e <;> simp [matchKey?]

/-- Wherever a `match` without faults is laid, its code and its table are there. -/
theorem Lower.Laid.matchCode {pos : Position} {required : Bool} {x : Node} {cases : List (Arm Node)}
    {P : Prototype} {i j : Nat} (hlaid : Laid ⟨pos, required, .matchCases x cases⟩ P i j)
    (hx : Marking.Marks true x) (hcases : ∀ a ∈ cases, Marking.Marks required a.body)
    (hkeyed : Keyed [] cases) :
    ∃ site starts fallback table, MatchCode P required x cases i site starts fallback j ∧
      MatchTable P cases site starts fallback table := by
  obtain ⟨height, hshape⟩ := hlaid.shape fun h => Lower.threads_matching pos required x cases
    (Lower.threads_laid (Lower.realizes_node x true hx h).balances.emits)
    (Lower.threadsArms_of_emits (S := fun n => Laid n)
      (fun a ha =>
        Lower.threads_laid (Lower.realizes_node a.body required (hcases a ha) h).balances.emits)
      .empty)
  obtain ⟨site, index, table, last, hscrutinee, hmatch, harms, hdefault⟩ := hshape
  obtain ⟨starts, hcode, _, hbounds, hlisted, honly⟩ :=
    Lower.cases_of_arms harms hkeyed Lower.contains_empty
    fun a ha i j hlaid => hlaid.le (hcases a ha)
  have honly : ∀ {key start}, table.get? key = some start →
      ∃ a, (a, start) ∈ cases.zip starts ∧ matchKey? a.pattern = some key := fun hget => by
    rcases honly hget with hempty | hcase
    · cases hempty
    · exact hcase
  cases hwritten : table.get? .default with
  | some fallback =>
    -- the default is written
    have hcontains : table.contains .default = true := by rw [Table.contains, hwritten]; rfl
    rw [hcontains, Bool.true_or, if_pos rfl] at hdefault
    obtain ⟨rfl, htable⟩ := hdefault
    rw [Lower.orStop, if_pos hcontains] at htable
    obtain ⟨a, ha, hpattern⟩ := honly hwritten
    refine ⟨site, starts, fallback, table, { hcode with scrutinee := hscrutinee, default := ?_ },
      ⟨⟨index, hmatch.2.1, htable⟩, hlisted, hwritten, fun _ => honly⟩⟩
    exact .inl ⟨a, ha, matchKey?_eq_default_iff.1 hpattern⟩
  | none =>
    have hcontains : table.contains .default = false := by rw [Table.contains, hwritten]; rfl
    have hpatterns : ∀ a ∈ cases, a.pattern ≠ none := by
      intro a ha hpattern
      obtain ⟨start, hstart⟩ := exists_mem_zip hcode.length ha
      obtain ⟨key, hkey, hget⟩ := hlisted hstart
      rw [matchKey?_eq_default_iff.2 hpattern] at hkey
      cases hkey
      cases hwritten.symm.trans hget
    have hfresh : last ∉ starts := fun hmem => Nat.lt_irrefl _ (hbounds last hmem).2
    -- the table with the default added lists all cases as before
    have hadded : P.tables[index]? = some ⟨table.insert .default last⟩ →
        MatchTable P cases site starts last (table.insert .default last) := by
      refine fun htable =>
        ⟨⟨index, hmatch.2.1, htable⟩, fun {a start} hstart => ?_, ?_,
        fun {key start} hkey hget => ?_⟩
      · obtain ⟨key, hkey, hget⟩ := hlisted hstart
        refine ⟨key, hkey, ?_⟩
        rw [Table.get?_insert, if_neg, hget]
        rintro rfl
        cases hwritten.symm.trans hget
      · rw [Table.get?_insert, if_pos rfl]
      · rw [Table.get?_insert, if_neg (Ne.symm hkey)] at hget
        exact honly hget
    cases required with
    | false =>
      rw [hcontains, Bool.not_false, Bool.or_true, if_pos rfl] at hdefault
      obtain ⟨rfl, htable⟩ := hdefault
      rw [Lower.orStop, if_neg (by rw [hcontains]; exact Bool.false_ne_true)] at htable
      exact ⟨site, starts, last, _,
        { hcode with scrutinee := hscrutinee, default := .inr ⟨hpatterns, hfresh, rfl⟩ },
        hadded htable⟩
    | true =>
      rw [hcontains, Bool.not_true, Bool.or_false, if_neg Bool.false_ne_true] at hdefault
      obtain ⟨hnull, htable⟩ := hdefault
      exact ⟨site, starts, last, _, { hcode with
        scrutinee := hscrutinee
        default := .inr ⟨hpatterns, hfresh, hnull.2.1, hnull.1.symm⟩ }, hadded htable⟩

section Taken

variable {P : Prototype} {required : Bool} {x : Node} {cases : List (Arm Node)}
  {i site fallback stop : Nat} {starts : List Nat} {table : Table MatchKey Nat}

theorem MatchCode.default_of_fallback
    (hcode : MatchCode P required x cases i site starts fallback stop) {a : Arm Node}
    (ha : (a, fallback) ∈ cases.zip starts) : matchKey? a.pattern = some .default := by
  rcases hcode.default with ⟨b, hb, hpattern⟩ | ⟨_, hfresh, _⟩
  · rw [eq_of_mem_zip hcode.distinct ha hb]
    exact matchKey?_eq_default_iff.2 hpattern
  · exact absurd (List.of_mem_zip ha).2 hfresh

/-- The table leads to the case that has the key of the value, and to the default if there is
none. -/
theorem MatchTable.target (htable : MatchTable P cases site starts fallback table)
    (hcode : MatchCode P required x cases i site starts fallback stop) (u : Value) :
    ∃ target, (JumpTable.mk table).target? (MatchKey.of? u) = some target ∧
      (∀ {a start key}, (a, start) ∈ cases.zip starts → matchKey? a.pattern = some key →
        key ≠ .default → (target = start ↔ MatchKey.of? u = some key)) ∧
      (target ≠ fallback → ∃ a key, (a, target) ∈ cases.zip starts ∧
        matchKey? a.pattern = some key ∧ key ≠ .default) := by
  rw [target?_eq_caseFor, caseFor]
  cases hfound : (MatchKey.of? u).bind table.get? with
  | some target =>
    obtain ⟨key, hkey, hget⟩ := Option.bind_eq_some_iff.1 hfound
    have hne : key ≠ .default := fun h => MatchKey.of?_ne_default u (h ▸ hkey)
    obtain ⟨b, hb, hpattern⟩ := htable.only hne hget
    refine ⟨target, rfl, fun {a start key'} ha hkey' hne' => ?_,
      fun _ => ⟨b, key, hb, hpattern, hne⟩⟩
    constructor
    · rintro rfl
      rw [eq_of_mem_zip hcode.distinct ha hb, hpattern] at hkey'
      rw [hkey, hkey']
    · intro hof
      cases hkey.symm.trans hof
      obtain ⟨key', hkey'', hget'⟩ := htable.listed ha
      cases hkey'.symm.trans hkey''
      exact Option.some.inj (hget.symm.trans hget')
  | none =>
    refine ⟨fallback, htable.default, fun {a start key} ha hkey hne => ?_, fun h => absurd rfl h⟩
    constructor
    · rintro rfl
      have hdefault := hcode.default_of_fallback ha
      exact absurd (Option.some.inj (hkey.symm.trans hdefault)) hne
    · intro hof
      obtain ⟨key', hkey', hget⟩ := htable.listed ha
      cases hkey.symm.trans hkey'
      rw [hof, Option.bind_some, hget] at hfound
      cases hfound

end Taken

theorem Arm.literal?_eq_some_iff {a : Arm Node} {w : Value} :
    a.literal? = some w ↔ ∃ key, matchKey? a.pattern = some key ∧ key.literal? = some w :=
  Option.bind_eq_some_iff

theorem MatchKey.literal?_isSome {key : MatchKey} (h : key ≠ .default) :
    ∃ w, key.literal? = some w := by
  cases key with
  | default => exact absurd rfl h
  | _ => exact ⟨_, rfl⟩

theorem MatchKey.ne_default_of_literal? {key : MatchKey} {w : Value} (h : key.literal? = some w) :
    key ≠ .default := by
  rintro rfl
  cases h

/-- The instruction of a `match` follows the references from the value on top of the stack, and goes
where the table says. -/
theorem Machine.At.matchOn_step (host : Host) {m : Machine} {f : Frame} {rest : List Frame}
    {site index : Nat} {v : Value} {st : List Value} {table : Table MatchKey Nat}
    (hm : m.At f rest site) (hi : f.prototype.Carries site (.wide .matchOn index))
    (htable : f.prototype.tables[index]? = some ⟨table⟩) (hstack : f.stack = v :: st) :
    (∀ e, m.store.deref v = .error e →
      m.step host = Machine.raise { m with frames := { f with ip := site + 1 } :: rest } e) ∧
    ∀ u target, m.store.deref v = .ok u →
      (JumpTable.mk table).target? (MatchKey.of? u) = some target →
      m.step host = .running { m with frames := { f with ip := target, stack := st } :: rest } := by
  have hc : (Insn.wide .matchOn index).pack.c = index := hi.c_eq hi.word rfl
  have hop : (Insn.wide .matchOn index).op = .matchOn := rfl
  rw [hm.step_eq hi, Machine.execute]
  obtain ⟨store, frames, pending, depth, limit⟩ := m
  have hpending : pending = none := hm.pending
  subst hpending
  simp only [Exec.word, Insn.op?_pack, hop, hm.ip]
  refine ⟨fun e he => ?_, fun u target hu htarget => ?_⟩
  · have hrun : Exec.operation { f with ip := site + 1 } (Insn.wide .matchOn index).pack
      .matchOn store = .error e store := by
      simp only [Exec.operation, Exec.popPlain, Exec.pop, Frame.pop, hstack, bind, EStateM.bind,
        Action.ofExcept, Action.reading]
      rw [he]
    rw [hrun]
  · have hrun : Exec.operation { f with ip := site + 1 } (Insn.wide .matchOn index).pack
      .matchOn store = .ok (.next { f with ip := target, stack := st }) store := by
      have htable' : ({ f with ip := site + 1, stack := st } : Frame).prototype.tables[index]? =
        some ⟨table⟩ := htable
      simp only [Exec.operation, Exec.popPlain, Exec.pop, Frame.pop, hstack, bind, EStateM.bind,
        Action.ofExcept, Action.reading, hc]
      rw [hu]
      simp only [pure, EStateM.pure, htable', Option.bind_some, htarget]
    rw [hrun]

/-- A `match` agrees with `==` on every value, except that a double has to be exactly an integer
beyond `2 ^ 53`. Its code is in the function that it belongs to, more than once if it is in the
condition of a `while` with an `el`. Wherever it is, the instruction follows the references of the
scrutinee and fails if that fails. Otherwise it goes to the code of one of the cases: to that of a
literal if and only if the value is equal to it, and to the default if and only if it goes to no
literal's. Nothing is said of a double beyond the 64-bit integers against the last of them. -/
theorem match_takes_case {source : String} {p : Prototype} (h : compile source = .ok p)
    {pos : Position} {required : Bool} {x : Node} {cases : List (Arm Node)}
    (hy : OccursIn ⟨pos, required, .matchCases x cases⟩ (readProgram source).items) :
    (∃ P i j, Prototype.Inside P p ∧ Laid ⟨pos, required, .matchCases x cases⟩ P i j) ∧
    ∀ P i j, Laid ⟨pos, required, .matchCases x cases⟩ P i j → ∃ site starts fallback,
      MatchCode P required x cases i site starts fallback j ∧
      ∀ (host : Host) (m : Machine) (f : Frame) (rest : List Frame) (v : Value) (st : List Value),
        m.At f rest site → f.prototype = P → f.stack = v :: st →
        (∀ e, m.store.deref v = .error e →
          m.step host = Machine.raise { m with frames := { f with ip := site + 1 } :: rest } e) ∧
        ∀ u, m.store.deref v = .ok u → ∃ target,
          m.step host = .running { m with frames := { f with ip := target, stack := st } :: rest } ∧
          (∀ a start w, (a, start) ∈ cases.zip starts → a.literal? = some w → ¬u.Saturates w →
            (target = start ↔ m.store.equal u w = true ∧ u.Exactly w)) ∧
          (target = fallback ↔ ∀ a start w, (a, start) ∈ cases.zip starts → a.literal? = some w →
            target ≠ start) := by
  obtain ⟨⟨_, hx, hcases⟩, hkeyed, hplace⟩ := laid_of_compile h hy rfl
  refine ⟨hplace, fun P i j hlaid => ?_⟩
  obtain ⟨site, starts, fallback, table, hcode, htable⟩ := hlaid.matchCode hx hcases.of_mem hkeyed
  obtain ⟨index, hi, hindex⟩ := htable.instruction
  refine ⟨site, starts, fallback, hcode, ?_⟩
  rintro host m f rest v st hm rfl hstack
  obtain ⟨hfails, hgoes⟩ := hm.matchOn_step host hi hindex hstack
  refine ⟨hfails, fun u hu => ?_⟩
  obtain ⟨target, htarget, hliteral, hother⟩ := htable.target hcode u
  refine ⟨target, hgoes u target hu htarget, fun a start w ha hw hin => ?_, ?_⟩
  · obtain ⟨key, hkey, hvalue⟩ := Arm.literal?_eq_some_iff.1 hw
    rw [hliteral ha hkey (MatchKey.ne_default_of_literal? hvalue)]
    exact MatchKey.of?_eq_some_iff m.store hvalue hin
  · constructor
    · rintro rfl a start w ha hw rfl
      obtain ⟨key, hkey, hvalue⟩ := Arm.literal?_eq_some_iff.1 hw
      cases hkey.symm.trans (hcode.default_of_fallback ha)
      cases hvalue
    · intro hnone
      refine Decidable.byContradiction fun hne => ?_
      obtain ⟨a, key, ha, hkey, hdefault⟩ := hother hne
      obtain ⟨w, hw⟩ := MatchKey.literal?_isSome hdefault
      exact hnone a target w ha (Arm.literal?_eq_some_iff.2 ⟨key, hkey, hw⟩) rfl

/-- A `match` on a double. -/
def matchingWhole : String :=
  "match 3.0 { null: 1, 3: 2 }"

/-- The integer of the literal of the second case, of a program that is a `match`. -/
def secondCase? : List Node → Option Int64
  | [⟨_, _, .matchCases _ [_, a]⟩] =>
    match a.literal? with
    | some (.num (.int i)) => some i
    | _ => none
  | _ => none

theorem secondCase?_eq_some {items : List Node} {i : Int64} (h : secondCase? items = some i) :
    ∃ pos required x a b, items = [⟨pos, required, .matchCases x [a, b]⟩] ∧
      b.literal? = some (.int i) := by
  unfold secondCase? at h
  split at h
  · rename_i pos required x a b
    split at h
    · rename_i j hj
      cases h
      exact ⟨pos, required, x, a, b, rfl, hj⟩
    · cases h
  · cases h

/-- A call of the function at the instruction at `k`. -/
def Machine.calling (P : Prototype) (stack : List Value) (k : Nat) : Machine :=
  ⟨.empty, [⟨⟨P, #[]⟩, none, 0, stack, k, [], none⟩], none, 1, 8⟩

/-- The case of the integer 3 is taken for the double 3.0. -/
theorem match_takes_case_whole :
    ∃ p pos required x a b, compile matchingWhole = .ok p ∧
      OccursIn ⟨pos, required, .matchCases x [a, b]⟩ (readProgram matchingWhole).items ∧
      b.literal? = some (.int 3) ∧ ∃ P site start e stop, Prototype.Inside P p ∧
        Laid b.body P start e ∧ P.Carries e (.wide .jump stop) ∧
        (Machine.calling P [.float (.ofInt 3)] site).step noHost =
          .running (Machine.calling P [] start) := by
  have hp : compile matchingWhole = .ok (.ofText matchingWhole) :=
    compile_eq_ofText (by decide +kernel)
  have hsecond : secondCase? (readProgram matchingWhole).items = some 3 := by decide +kernel
  obtain ⟨pos, required, x, a, b, hitems, hb⟩ := secondCase?_eq_some hsecond
  have hy : OccursIn ⟨pos, required, .matchCases x [a, b]⟩ (readProgram matchingWhole).items :=
    ⟨_, by rw [hitems]; exact List.mem_cons_self, .self⟩
  refine ⟨_, pos, required, x, a, b, hp, hy, hb, ?_⟩
  obtain ⟨⟨P, i, j, hinside, hlaid⟩, hplace⟩ := match_takes_case hp hy
  obtain ⟨site, starts, fallback, hcode, hruns⟩ := hplace P i j hlaid
  obtain ⟨start, hstart⟩ : ∃ start, (b, start) ∈ [a, b].zip starts :=
    exists_mem_zip hcode.length (by simp)
  obtain ⟨e, hlaid, hjump⟩ := hcode.body hstart
  obtain ⟨_, hgoes⟩ :=
    hruns noHost (.calling P [.float (.ofInt 3)] site) _ [] (.float (.ofInt 3)) []
    ⟨rfl, rfl, rfl⟩ rfl rfl
  obtain ⟨target, hstep, hcases, _⟩ := hgoes (.float (.ofInt 3)) rfl
  have hsaturates : ¬(Value.float (.ofInt 3)).Saturates (.int 3) := by
    rintro ⟨_, ⟨hlt, _⟩ | ⟨hlt, _⟩⟩ <;> exact absurd hlt (by decide +kernel)
  have hequal : Store.equal .empty (.float (.ofInt 3)) (.int 3) = true := by
    simp only [Store.equal, Store.equalIn, Value.float, Value.int]
    decide +kernel
  have htaken : target = start :=
    (hcases b start (.int 3) hstart hb hsaturates).2
      ⟨hequal, fun hlt => absurd hlt (by decide +kernel)⟩
  rw [htaken] at hstep
  exact ⟨P, site, start, e, j, hinside, hlaid, hjump, hstep⟩

/-- A `match` on a double beyond which not every integer is one. -/
def matchingNeighbour : String :=
  "match 9007199254740992.0 { 9007199254740993: 1, _: 2 }"

/-- The double is equal to the literal, which lies next to it, but the default is taken. -/
theorem match_misses_neighbour :
    Store.equal .empty (.float (.ofInt 9007199254740992)) (.int 9007199254740993) = true ∧
      ∃ p, compile matchingNeighbour = .ok p ∧ ∃ m, Machine.run noHost 20
        ((⟨.empty, [], none, 0, 8⟩ : Machine).runPrototype p []).machine =
          .returned (.int 2) m := by
  refine ⟨?_, _, compile_eq_ofText (by decide +kernel), Outcome.eq_returned (by decide +kernel)⟩
  simp only [Store.equal, Store.equalIn, Value.float, Value.int]
  decide +kernel

end Refscript
