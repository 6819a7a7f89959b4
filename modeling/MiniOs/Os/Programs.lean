import MiniOs.Os.Loader

/-!
# Programs — which texts `load` accepts

A program file holds a priority, a count, and as many instructions, each with its operands.  `parse`
reads it without regard to what the memory holds.  `load` does not accept exactly the programs:
where a conversion fails it goes on with what the memory held before.
-/

namespace MiniOs

open Lib.Scan

namespace Loader

/-! ## Programs -/

/-- An opcode with the operands written behind it. -/
abbrev Instr := Opcode × List Int

structure Program where
  priority : Int
  insts : List Instr

/-- A number of 32 bits without sign. -/
def IsUnsigned (x : Int) : Prop := 0 ≤ x ∧ x < 2 ^ 32

instance (x : Int) : Decidable (IsUnsigned x) := inferInstanceAs (Decidable (_ ∧ _))

/-- Exactly `k` operands. -/
def parseNumbers (k : Nat) (rest : List Char) : Option (List Int × List Char) :=
  let (xs, rest) := scanInts k rest
  if xs.length = k ∧ ∀ x ∈ xs, IsUnsigned x then some (xs, skipSpace rest) else none

/-- One to four operands, and nothing else on the line behind the opcode; the operands are among the
199 characters of the line that `buf` has room for. -/
def parseLine (rest : List Char) : Option (List Int × List Char) :=
  let (line, rest) := fgets 199 rest
  let (xs, tail) := scanInts 4 line
  if xs ≠ [] ∧ (∀ x ∈ xs, IsUnsigned x) ∧ tail.all isSpace ∧ line.all (·.toNat != 0) ∧
      (line.getLast? = some '\n' ∨ (rest.takeWhile (· ≠ '\n')).all isSpace) then
    some (xs, rest)
  else none

def parseArgs (opcode : Opcode) (rest : List Char) : Option (List Int × List Char) :=
  match opcode with
  | .calc => some ([], rest)
  | .alloc => parseNumbers 2 rest
  | .free => parseNumbers 1 rest
  | .read | .write => parseNumbers 3 rest
  | .syscall => parseLine rest

def parseInsts : Nat → List Char → Option (List Instr)
  | 0, _ => some []
  | k + 1, rest =>
      match scanWord rest with
      | none => none
      | some (word, rest) =>
          match getOpcode word with
          | none => none
          | some opcode =>
              match parseArgs opcode rest with
              | none => none
              | some (xs, rest) => (parseInsts k rest).map ((opcode, xs) :: ·)

/-- The priority and the count in front of the instructions. -/
def parseHeader (file : List Char) : Option (Int × Nat × List Char) :=
  match scanInts 2 file with
  | ([priority, count], rest) =>
      if IsUnsigned priority ∧ IsUnsigned count then some (priority, count.toNat, rest) else none
  | _ => none

def parse (file : List Char) : Option Program :=
  match parseHeader file with
  | none => none
  | some (priority, count, rest) => (parseInsts count rest).map fun insts => ⟨priority, insts⟩

/-! ## What load should do -/

/-- The loaded instruction is the written one; arguments without an operand may be anything. -/
def Matches (i : Instr) (ins : Inst) : Prop :=
  ins.opcode = i.1 ∧
    i.2 <+: [ins.arg0, ins.arg1, ins.arg2, ins.arg3].map fun arg => (arg.toNat : Int)

/-- If a call returns, it has read a program, and returns it. -/
def Sound (file : List Char) : Outcome (Addr × List Inst) → Prop
  | .exits => True
  | .undefined => False
  | .returns (priority, text) => ∃ program, parse file = some program ∧
      program.priority = priority.toNat ∧ List.Forall₂ Matches program.insts text

/-- Whatever the memory holds, `load` returns a program that it has read, or it exits. -/
def LoadsPrograms (file : List Char) : Prop := ∀ stale, Sound file (load stale file)

/-! ## When it does -/

/-- Every operand of a SYSCALL is an `int`, as `%d` wants it. -/
def FitsInt (insts : List Instr) : Prop :=
  ∀ i ∈ insts, i.1 = Opcode.syscall → ∀ x ∈ i.2, x < 2 ^ 31

/-- One of the first `k` words in the place of an opcode is none, and it is not too long for
`opcode`; in front of it no word is, and every number fits. -/
def HasUnknown : Nat → List Char → Prop
  | 0, _ => False
  | k + 1, rest =>
      match scanWord rest with
      | none => False
      | some (word, rest) => word.length < 10 ∧
          match getOpcode (cString word) with
          | none => True
          | some opcode =>
              match readArgs opcode [] rest with
              | none => False
              | some (_, _, rest) => HasUnknown k rest

/-- The two numbers of the header are there and fit, and then the text is as `HasUnknown` says. -/
def ReachesUnknown (file : List Char) : Prop :=
  ∃ xs rest priority count, scanInts 2 file = (xs, rest) ∧
    storedUnsigned xs = some [priority, count] ∧ HasUnknown count.toNat rest

/-! ## Operands -/

theorem getOpcode_some {word : List Char} {opcode : Opcode} (h : getOpcode word = some opcode) :
    word.length < 10 ∧ cString word = word := by
  unfold getOpcode at h
  split_ifs at h <;> subst_vars <;> exact ⟨by decide, by decide⟩

theorem stored_length {low high : Int} {xs : List Int} {vals : List Addr}
    (h : stored low high xs = some vals) : vals.length = xs.length := by
  unfold stored at h
  split_ifs at h
  cases h
  exact List.length_map _

theorem storedUnsigned_eq {xs : List Int} (h : ∀ x ∈ xs, IsUnsigned x) :
    storedUnsigned xs = some (xs.map (BitVec.ofInt 32)) := by
  refine if_pos fun x hx => ?_
  obtain ⟨h0, h1⟩ := h x hx
  exact ⟨by omega, h1⟩

theorem storedInt_eq {xs : List Int} (hu : ∀ x ∈ xs, IsUnsigned x) :
    storedInt xs = if ∀ x ∈ xs, x < 2 ^ 31 then some (xs.map (BitVec.ofInt 32)) else none := by
  refine if_congr ⟨fun h x hx => (h x hx).2, fun h x hx => ?_⟩ rfl rfl
  have h0 := (hu x hx).1
  exact ⟨by omega, h x hx⟩

/-- The operands of an opcode in the type of its conversions. -/
def storedArgs (opcode : Opcode) (xs : List Int) : Option (List Addr) :=
  match opcode with
  | .syscall => storedInt xs
  | _ => storedUnsigned xs

/-- The operands of a SYSCALL are of type `int`. -/
def ArgsFit (opcode : Opcode) (xs : List Int) : Prop := opcode = .syscall → ∀ x ∈ xs, x < 2 ^ 31

instance (opcode : Opcode) (xs : List Int) : Decidable (ArgsFit opcode xs) :=
  inferInstanceAs (Decidable (_ → _))

theorem storedArgs_eq {opcode : Opcode} {xs : List Int} (hu : ∀ x ∈ xs, IsUnsigned x) :
    storedArgs opcode xs =
      if ArgsFit opcode xs then some (xs.map (BitVec.ofInt 32)) else none := by
  by_cases hop : opcode = .syscall
  · subst hop
    exact (storedInt_eq hu).trans (if_congr (by simp [ArgsFit]) rfl rfl)
  · have hfit : ArgsFit opcode xs := fun hsys => absurd hsys hop
    rw [if_pos hfit, ← storedUnsigned_eq hu]
    cases opcode <;> first | rfl | exact absurd rfl hop

theorem fscanfArgs_of_parse {k : Nat} {rest rest' : List Char} {xs : List Int}
    (h : parseNumbers k rest = some (xs, rest')) (buf : List Char) :
    (∀ x ∈ xs, IsUnsigned x) ∧ xs.length = k ∧ (fscanfArgs k rest).map (fun r => (r.1, buf, r.2)) =
      (storedUnsigned xs).map fun vals => (vals, buf, rest') := by
  unfold parseNumbers at h
  unfold fscanfArgs
  simp only at h ⊢
  split_ifs at h with hys
  obtain ⟨rfl, rfl⟩ := Prod.mk.inj (Option.some.inj h)
  refine ⟨hys.2, hys.1, ?_⟩
  rw [if_pos hys.1, Option.map_map, Function.comp_def]

/-- What is behind SYSCALL is read from its line. -/
theorem readLine_of_parse {rest rest' : List Char} {xs : List Int}
    (h : parseLine rest = some (xs, rest')) (buf : List Char) :
    (∀ x ∈ xs, IsUnsigned x) ∧ xs.length ≤ 4 ∧ ∃ line, readArgs .syscall buf rest =
      (storedInt xs).map fun vals => (vals, line, rest') := by
  have hne : rest ≠ [] := by
    rintro rfl
    cases h
  unfold parseLine at h
  unfold readArgs
  rw [if_neg hne]
  simp only at h ⊢
  split_ifs at h with hys
  obtain ⟨-, hunsigned, -, hnul, -⟩ := hys
  obtain ⟨rfl, rfl⟩ := Prod.mk.inj (Option.some.inj h)
  refine ⟨hunsigned, scanInts_length_le 4 _, (fgets 199 rest).1, ?_⟩
  rw [cString_eq hnul]

/-- What `load` makes of the operands that are written, for every content of `buf`. -/
theorem readArgs_of_parse {opcode : Opcode} {rest rest' : List Char} {xs : List Int}
    (h : parseArgs opcode rest = some (xs, rest')) (buf : List Char) :
    (∀ x ∈ xs, IsUnsigned x) ∧ xs.length ≤ 4 ∧ ∃ buf', readArgs opcode buf rest =
      (storedArgs opcode xs).map fun vals => (vals, buf', rest') := by
  have hnumbers : ∀ k, k ≤ 3 → parseNumbers k rest = some (xs, rest') →
      (∀ x ∈ xs, IsUnsigned x) ∧ xs.length ≤ 4 ∧
        ∃ buf', (fscanfArgs k rest).map (fun r => (r.1, buf, r.2)) =
          (storedUnsigned xs).map fun vals => (vals, buf', rest') := by
    intro k hk hparse
    obtain ⟨hunsigned, hlen, hread⟩ := fscanfArgs_of_parse hparse buf
    exact ⟨hunsigned, by omega, buf, hread⟩
  rcases opcode with _ | _ | _ | _ | _ | _
  · obtain ⟨rfl, rfl⟩ := Prod.mk.inj (Option.some.inj h)
    exact ⟨by simp, by simp, buf, rfl⟩
  · exact hnumbers 2 (by omega) h
  · exact hnumbers 1 (by omega) h
  · exact hnumbers 3 (by omega) h
  · exact hnumbers 3 (by omega) h
  · exact readLine_of_parse h buf

theorem ofInt_toNat {x : Int} (h : IsUnsigned x) : ((BitVec.ofInt 32 x).toNat : Int) = x := by
  obtain ⟨h0, h1⟩ := h
  rw [BitVec.toNat_ofInt]
  omega

theorem prefix_setArgs (ins : Inst) {vals : List Addr} (hlen : vals.length ≤ 4) :
    vals <+: [(setArgs ins vals).arg0, (setArgs ins vals).arg1, (setArgs ins vals).arg2,
      (setArgs ins vals).arg3] := by
  obtain _ | ⟨a, _ | ⟨b, _ | ⟨c, _ | ⟨d, _ | ⟨e, vals⟩⟩⟩⟩⟩ := vals
  · exact List.nil_prefix
  · exact ⟨_, rfl⟩
  · exact ⟨_, rfl⟩
  · exact ⟨_, rfl⟩
  · exact ⟨[], rfl⟩
  · simp only [List.length_cons] at hlen
    omega

/-- The instruction that gets the written operands is the written one. -/
theorem matches_setArgs {opcode : Opcode} {xs : List Int} (hu : ∀ x ∈ xs, IsUnsigned x)
    (hlen : xs.length ≤ 4) (ins : Inst) (hins : ins.opcode = opcode) :
    Matches (opcode, xs) (setArgs ins (xs.map (BitVec.ofInt 32))) := by
  have hvals : (xs.map (BitVec.ofInt 32)).map (fun arg => (arg.toNat : Int)) = xs := by
    rw [List.map_map]
    exact (List.map_congr_left fun x hx => ofInt_toNat (hu x hx)).trans (List.map_id xs)
  have hroom : (xs.map (BitVec.ofInt 32)).length ≤ 4 := by simpa using hlen
  have hargs := (prefix_setArgs ins hroom).map fun arg => (arg.toNat : Int)
  rw [hvals] at hargs
  exact ⟨hins, hargs⟩

/-! ## Programs are loaded -/

theorem fitsInt_cons {i : Instr} {insts : List Instr} :
    FitsInt (i :: insts) ↔ ArgsFit i.1 i.2 ∧ FitsInt insts :=
  List.forall_mem_cons

/-- The loop on as many instructions as it wants, whatever its buffers hold. -/
theorem loadLoop_of_parse (text : Nat → Inst) : ∀ (k : Nat) {rest : List Char}
    {insts : List Instr}, parseInsts k rest = some insts → ∀ (i : Nat) (opcode buf : List Char),
    (FitsInt insts ∧ ∃ loaded, loadLoop text k i ⟨rest, opcode, buf⟩ = .returns loaded ∧
        List.Forall₂ Matches insts loaded) ∨
      (¬ FitsInt insts ∧ loadLoop text k i ⟨rest, opcode, buf⟩ = .undefined) := by
  intro k
  induction k with
  | zero =>
      intro rest insts h i opcode buf
      obtain rfl := Option.some.inj h
      exact Or.inl ⟨by simp [FitsInt], [], rfl, List.Forall₂.nil⟩
  | succ k ih =>
      intro rest insts h i opcode buf
      rw [parseInsts] at h
      cases hword : scanWord rest with
      | none => simp [hword] at h
      | some r =>
          obtain ⟨word, rest1⟩ := r
          simp only [hword] at h
          cases hop : getOpcode word with
          | none => simp [hop] at h
          | some op =>
              simp only [hop] at h
              cases hargs : parseArgs op rest1 with
              | none => simp [hargs] at h
              | some r =>
                  obtain ⟨xs, rest2⟩ := r
                  simp only [hargs] at h
                  obtain ⟨insts', hinsts, rfl⟩ := Option.map_eq_some_iff.1 h
                  obtain ⟨hshort, hstring⟩ := getOpcode_some hop
                  obtain ⟨hunsigned, hlen, buf', hread⟩ := readArgs_of_parse hargs buf
                  rw [storedArgs_eq hunsigned] at hread
                  rw [fitsInt_cons, loadLoop, readOpcode]
                  simp only [hword, if_pos hshort, hstring, hop]
                  by_cases hfit : ArgsFit op xs
                  · rw [hread, if_pos hfit]
                    have hmatch := matches_setArgs hunsigned hlen
                      { text i with opcode := op } rfl
                    rcases ih hinsts (i + 1) word buf' with ⟨hrest, loaded, hloop, hall⟩ |
                      ⟨hrest, hloop⟩
                    · refine Or.inl ⟨⟨hfit, hrest⟩, _, ?_, List.Forall₂.cons hmatch hall⟩
                      simp only [Option.map_some, hloop, Outcome.map]
                    · refine Or.inr ⟨fun hboth => hrest hboth.2, ?_⟩
                      simp only [Option.map_some, hloop, Outcome.map]
                  · rw [hread, if_neg hfit]
                    exact Or.inr ⟨fun hboth => hfit hboth.1, rfl⟩

/-! ## Unknown opcodes -/

@[simp] theorem Outcome.map_eq_exits {α β : Type} {f : α → β} {outcome : Outcome α} :
    outcome.map f = .exits ↔ outcome = .exits := by
  cases outcome <;> simp [Outcome.map]

theorem HasUnknown.ne_nil {k : Nat} {rest : List Char} (h : HasUnknown k rest) : rest ≠ [] := by
  rintro rfl
  cases k <;> exact h

theorem readArgs_nil {opcode : Opcode} {buf buf' rest' : List Char} {vals : List Addr}
    (h : readArgs opcode buf [] = some (vals, buf', rest')) : rest' = [] := by
  have hnumbers : ∀ k, (fscanfArgs k []).map (fun r => (r.1, buf, r.2)) = some (vals, buf', rest') →
      rest' = [] := by
    intro k hk
    obtain ⟨⟨vals, rest⟩, hread, heq⟩ := Option.map_eq_some_iff.1 hk
    simp only [fscanfArgs, scanInts_nil, Option.map_eq_some_iff, Prod.mk.injEq] at hread heq
    obtain ⟨-, -, -, rfl⟩ := hread
    rw [← heq.2.2]
    split_ifs <;> rfl
  rcases opcode with _ | _ | _ | _ | _ | _
  · cases h
    rfl
  · exact hnumbers 2 h
  · exact hnumbers 1 h
  · exact hnumbers 3 h
  · exact hnumbers 3 h
  · obtain ⟨vals, -, heq⟩ := Option.map_eq_some_iff.1 h
    cases heq
    rfl

/-- Unless the file is at its end, `buf` has no part in what is read behind an opcode. -/
theorem readArgs_congr (opcode : Opcode) {rest : List Char} (hrest : rest ≠ [])
    (buf buf' : List Char) :
    (readArgs opcode buf rest).map (fun r => (r.1, r.2.2)) =
      (readArgs opcode buf' rest).map fun r => (r.1, r.2.2) := by
  cases opcode <;> simp [readArgs, hrest, Option.map_map, Function.comp_def]

/-- What is left behind the operands, for another content of `buf`. -/
theorem readArgs_rest {opcode : Opcode} {buf buf' rest rest' : List Char} {vals : List Addr}
    (h : readArgs opcode buf rest = some (vals, buf', rest')) (hrest : rest' ≠ [])
    (other : List Char) : ∃ other', readArgs opcode other rest = some (vals, other', rest') := by
  have hne : rest ≠ [] := by
    rintro rfl
    exact hrest (readArgs_nil h)
  have hcongr := readArgs_congr opcode hne other buf
  rw [h, Option.map_some] at hcongr
  obtain ⟨⟨vals', other', rest''⟩, hread, heq⟩ := Option.map_eq_some_iff.1 hcongr
  cases heq
  exact ⟨other', hread⟩

/-- In front of an unknown opcode the buffers do not matter, and `get_opcode` exits. -/
theorem loadLoop_exits (text : Nat → Inst) : ∀ (k : Nat) {rest : List Char}, HasUnknown k rest →
    ∀ (i : Nat) (opcode buf : List Char), loadLoop text k i ⟨rest, opcode, buf⟩ = .exits := by
  intro k
  induction k with
  | zero => exact fun h => h.elim
  | succ k ih =>
      intro rest h i opcode buf
      rw [HasUnknown] at h
      rw [loadLoop, readOpcode]
      cases hword : scanWord rest with
      | none => simp only [hword] at h
      | some r =>
          obtain ⟨word, rest1⟩ := r
          simp only [hword] at h
          obtain ⟨hshort, h⟩ := h
          simp only [if_pos hshort]
          cases hop : getOpcode (cString word) with
          | none => rfl
          | some op =>
              simp only [hop] at h ⊢
              cases hread : readArgs op [] rest1 with
              | none => simp only [hread] at h
              | some r =>
                  obtain ⟨vals, buf1, rest2⟩ := r
                  simp only [hread] at h
                  obtain ⟨buf2, hread'⟩ := readArgs_rest hread h.ne_nil buf
                  simp only [hread', ih h, Outcome.map]

/-- With an opcode in its buffer, the loop exits only at an unknown opcode of the file. -/
theorem hasUnknown_of_exits (text : Nat → Inst) : ∀ (k i : Nat) (st : Buffers),
    getOpcode (cString st.opcode) ≠ none → loadLoop text k i st = .exits →
      HasUnknown k st.rest := by
  intro k
  induction k with
  | zero =>
      intro i st _ h
      cases h
  | succ k ih =>
      intro i st hknown h
      rw [loadLoop, readOpcode] at h
      rw [HasUnknown]
      cases hword : scanWord st.rest with
      | none =>
          simp only [hword] at h
          cases hop : getOpcode (cString st.opcode) with
          | none => exact absurd hop hknown
          | some op =>
              simp only [hop] at h
              cases hread : readArgs op st.buf [] with
              | none => simp only [hread, reduceCtorEq] at h
              | some r =>
                  obtain ⟨vals, buf, rest⟩ := r
                  simp only [hread, Outcome.map_eq_exits] at h
                  have hunknown := ih (i + 1) ⟨rest, st.opcode, buf⟩ hknown h
                  exact absurd (readArgs_nil hread) hunknown.ne_nil
      | some r =>
          obtain ⟨word, rest1⟩ := r
          simp only [hword] at h ⊢
          split_ifs at h with hshort
          refine ⟨hshort, ?_⟩
          cases hop : getOpcode (cString word) with
          | none => trivial
          | some op =>
              simp only [hop] at h ⊢
              cases hread : readArgs op st.buf rest1 with
              | none => simp only [hread, reduceCtorEq] at h
              | some r =>
                  obtain ⟨vals, buf, rest2⟩ := r
                  simp only [hread, Outcome.map_eq_exits] at h
                  have hunknown := ih _ _ (by simp [hop]) h
                  obtain ⟨buf', hread'⟩ := readArgs_rest hread hunknown.ne_nil []
                  simp only [hread']
                  exact hunknown

/-! ## load -/

theorem parseHeader_eq_some {file rest : List Char} {priority : Int} {count : Nat}
    (h : parseHeader file = some (priority, count, rest)) :
    ∃ number, scanInts 2 file = ([priority, number], rest) ∧
      IsUnsigned priority ∧ IsUnsigned number ∧ count = number.toNat := by
  unfold parseHeader at h
  split at h
  · rename_i first number tail hscan
    split_ifs at h with hu
    cases h
    exact ⟨number, hscan, hu.1, hu.2, rfl⟩
  · cases h

theorem parse_eq_some {file : List Char} {program : Program} (h : parse file = some program) :
    ∃ count rest, scanInts 2 file = ([program.priority, count], rest) ∧
      IsUnsigned program.priority ∧ IsUnsigned count ∧
        parseInsts count.toNat rest = some program.insts := by
  obtain ⟨⟨priority, count, rest⟩, hheader, h⟩ : ∃ r, parseHeader file = some r ∧
      (parseInsts r.2.1 r.2.2).map (fun insts => ⟨r.1, insts⟩) = some program := by
    unfold parse at h
    cases hheader : parseHeader file with
    | none => simp [hheader] at h
    | some r => exact ⟨r, rfl, by simpa only [hheader] using h⟩
  obtain ⟨insts, hinsts, rfl⟩ := Option.map_eq_some_iff.1 h
  obtain ⟨number, hscan, hpriority, hnumber, rfl⟩ := parseHeader_eq_some hheader
  exact ⟨number, rest, hscan, hpriority, hnumber, hinsts⟩

theorem ofInt_toNat_eq {x : Int} (h : IsUnsigned x) : (BitVec.ofInt 32 x).toNat = x.toNat := by
  have := ofInt_toNat h
  omega

/-- A program is loaded, unless an operand of a SYSCALL does not fit. -/
theorem load_of_parse {file : List Char} {program : Program} (h : parse file = some program)
    (stale : Stale) :
    (FitsInt program.insts ∧ Sound file (load stale file)) ∨
      (¬ FitsInt program.insts ∧ load stale file = .undefined) := by
  obtain ⟨count, rest, hscan, hpriority, hcount, hinsts⟩ := parse_eq_some h
  have hload : load stale file = (loadLoop stale.text count.toNat 0
      ⟨rest, stale.opcode, stale.buf⟩).map (BitVec.ofInt 32 program.priority, ·) := by
    have hstored : storedUnsigned [program.priority, count] =
        some [BitVec.ofInt 32 program.priority, BitVec.ofInt 32 count] :=
      storedUnsigned_eq (by simp [hpriority, hcount])
    unfold load
    rw [hscan, ← ofInt_toNat_eq hcount]
    simp only [hstored]
    rfl
  rw [hload]
  rcases loadLoop_of_parse stale.text count.toNat hinsts 0 stale.opcode stale.buf with
    ⟨hfit, loaded, hloop, hall⟩ | ⟨hfit, hloop⟩
  · rw [hloop]
    exact Or.inl ⟨hfit, program, h, (ofInt_toNat hpriority).symm, hall⟩
  · rw [hloop]
    exact Or.inr ⟨hfit, rfl⟩

theorem load_exits {file : List Char} (h : ReachesUnknown file) (stale : Stale) :
    load stale file = .exits := by
  obtain ⟨xs, rest, priority, count, hscan, hstored, hunknown⟩ := h
  unfold load
  rw [hscan]
  simp only [hstored]
  exact Outcome.map_eq_exits.2 (loadLoop_exits stale.text _ hunknown 0 _ _)

/-- Over a count of zero and an opcode, `load` exits only at an unknown opcode of the file. -/
theorem reachesUnknown_of_exits {file : List Char} {stale : Stale} (hsize : stale.size = 0)
    (hknown : getOpcode (cString stale.opcode) ≠ none) (h : load stale file = .exits) :
    ReachesUnknown file := by
  unfold load at h
  cases hscan : scanInts 2 file with
  | mk xs rest =>
      have hlen : xs.length ≤ 2 := by
        have := scanInts_length_le 2 file
        rwa [hscan] at this
      simp only [hscan] at h
      cases hstored : storedUnsigned xs with
      | none => simp only [hstored, reduceCtorEq] at h
      | some vals =>
          simp only [hstored, Outcome.map_eq_exits] at h
          have hunknown := hasUnknown_of_exits stale.text _ 0 _ hknown h
          have hvals : vals.length ≤ 2 := by
            rw [stored_length hstored]
            exact hlen
          obtain _ | ⟨priority, _ | ⟨count, _ | ⟨third, vals⟩⟩⟩ := vals
          · simp only [List.getD_nil, hsize] at hunknown
            exact hunknown.elim
          · simp only [List.getD_cons_succ, List.getD_nil, hsize] at hunknown
            exact hunknown.elim
          · exact ⟨xs, rest, priority, count, hscan, hstored, hunknown⟩
          · simp only [List.length_cons] at hvals
            omega

theorem exits_of_sound {file : List Char} {outcome : Outcome (Addr × List Inst)}
    (hparse : parse file = none) (h : Sound file outcome) : outcome = .exits := by
  cases outcome with
  | exits => rfl
  | undefined => exact h.elim
  | returns result =>
      obtain ⟨program, hprogram, -⟩ := h
      rw [hparse] at hprogram
      cases hprogram

/-- `load` keeps to the programs exactly on the texts that are programs with operands that fit, and
on those where `get_opcode` gets to see an unknown opcode. -/
theorem loadsPrograms_iff (file : List Char) :
    LoadsPrograms file ↔
      (∃ program, parse file = some program ∧ FitsInt program.insts) ∨ ReachesUnknown file := by
  constructor
  · intro hall
    -- a count that is not read is zero, and the first opcode is not unknown
    let stale : Stale := ⟨0, 0, ['c', 'a', 'l', 'c'], [], fun _ => ⟨.calc, 0, 0, 0, 0⟩⟩
    have hsound := hall stale
    cases hparse : parse file with
    | some program =>
        rcases load_of_parse hparse stale with ⟨hfit, -⟩ | ⟨-, hundefined⟩
        · exact Or.inl ⟨program, rfl, hfit⟩
        · rw [hundefined] at hsound
          exact hsound.elim
    | none =>
        have hknown : getOpcode (cString stale.opcode) ≠ none := by decide
        exact Or.inr (reachesUnknown_of_exits rfl hknown (exits_of_sound hparse hsound))
  · rintro (⟨program, hparse, hfit⟩ | hunknown) stale
    · rcases load_of_parse hparse stale with ⟨-, hsound⟩ | ⟨hnot, -⟩
      · exact hsound
      · exact absurd hfit hnot
    · rw [load_exits hunknown stale]
      trivial

/-- The text `1 2`, `calc` has one instruction of two; the second is the first one again. -/
theorem not_loadsPrograms_short :
    ¬ LoadsPrograms ['1', ' ', '2', '\n', 'c', 'a', 'l', 'c', '\n'] := by
  intro h
  let stale : Stale := ⟨0, 0, [], [], fun _ => ⟨.calc, 0, 0, 0, 0⟩⟩
  have hload : load stale ['1', ' ', '2', '\n', 'c', 'a', 'l', 'c', '\n'] =
      .returns (1#32, [⟨.calc, 0, 0, 0, 0⟩, ⟨.calc, 0, 0, 0, 0⟩]) := by rfl
  have hparse : parse ['1', ' ', '2', '\n', 'c', 'a', 'l', 'c', '\n'] = none := by rfl
  have hsound := h stale
  rw [hload] at hsound
  obtain ⟨program, hprogram, -⟩ := hsound
  rw [hparse] at hprogram
  cases hprogram

end Loader
end MiniOs
