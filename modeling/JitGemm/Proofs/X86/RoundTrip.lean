import JitGemm.Proofs.X86.Operands

/-!
# Reading instructions back

The decoder reads back each instruction that the encoder writes, whatever bytes follow: the integer
instructions, the three vector families, and then all of them with the branches.
-/

namespace JitGemm.X86

open Code (le32 le64)

-- ---------------------------------------------------------------------------
-- Integer instructions
-- ---------------------------------------------------------------------------

theorem takeRex_rex (w r x b : Bool) {opcode : UInt8} (h : opcode &&& 0xF0 ≠ 0x40)
    (rest : List UInt8) :
    takeRex (rex w r x b ++ opcode :: rest) = (⟨w, r, x, b⟩, opcode :: rest) := by
  have hbyte : ∀ w r x b : Bool,
      let bits := flag w 3 ||| flag r 2 ||| flag x 1 ||| flag b 0
      (0x40 ||| bits) &&& 0xF0 = 0x40 ∧ hasBit (0x40 ||| bits) 3 = w ∧
        hasBit (0x40 ||| bits) 2 = r ∧ hasBit (0x40 ||| bits) 1 = x ∧
        hasBit (0x40 ||| bits) 0 = b ∧
        (bits = 0 → w = false ∧ r = false ∧ x = false ∧ b = false) := by
    decide
  obtain ⟨hhead, hw, hr, hx, hb, hzero⟩ := hbyte w r x b
  unfold rex
  by_cases hbits : flag w 3 ||| flag r 2 ||| flag x 1 ||| flag b 0 = 0
  · obtain ⟨rfl, rfl, rfl, rfl⟩ := hzero hbits
    simp [hbits, takeRex, h]
  · simp [hbits, takeRex, hhead, hw, hr, hx, hb]

/-- The opcodes with ModRM among those of the integer decoder. -/
def WideOpcode (opcode : UInt8) : Prop :=
  opcode &&& 0xF0 ≠ 0x40 ∧ opcode &&& 0xF8 ≠ 0x50 ∧ opcode &&& 0xF8 ≠ 0x58 ∧ opcode ≠ 0xC3 ∧
    opcode &&& 0xF8 ≠ 0xB8 ∧ opcode ≠ 0x0F

instance (opcode : UInt8) : Decidable (WideOpcode opcode) :=
  inferInstanceAs (Decidable (_ ∧ _))

theorem decodeInteger_wide (r x b : Bool) {opcode : UInt8} (h : WideOpcode opcode)
    (rest : List UInt8) :
    decodeInteger (rex true r x b ++ opcode :: rest) =
      decodeWide opcode ⟨true, r, x, b⟩ rest := by
  obtain ⟨hrex, hpush, hpop, hret, hmov, htwo⟩ := h
  simp [decodeInteger, takeRex_rex _ _ _ _ hrex, hpush, hpop, hret, hmov, htwo]

/-- A register in the low bits of an opcode. -/
theorem opcode_low3 {opcode : UInt8} (h : opcode = 0x50 ∨ opcode = 0x58 ∨ opcode = 0xB8)
    (r : UInt8) :
    (opcode + low3 r) &&& 0xF8 = opcode ∧ (opcode + low3 r) &&& 7 = low3 r ∧
      (opcode + low3 r) &&& 0xF0 ≠ 0x40 ∧ opcode + low3 r ≠ 0xC3 := by
  have all : ∀ i : Fin 8, ∀ o ∈ [(0x50 : UInt8), 0x58, 0xB8],
      (o + UInt8.ofNat i) &&& 0xF8 = o ∧ (o + UInt8.ofNat i) &&& 7 = UInt8.ofNat i ∧
        (o + UInt8.ofNat i) &&& 0xF0 ≠ 0x40 ∧ o + UInt8.ofNat i ≠ 0xC3 := by decide +kernel
  simpa using all ⟨_, low3_lt r⟩ opcode (by simpa using h)

/-- The form in which an instruction is read back: shift counts are cut down to six bits. -/
def Instr.canonical : Instr → Instr
  | .shlImm r n => .shlImm r (n &&& 63)
  | i => i

/-- Integer instructions with registers and addresses that exist. -/
def Instr.Integer : Instr → Prop
  | .push r | .pop r | .movImm r _ | .addImm r _ | .subImm r _ | .cmpImm r _ | .shlImm r _
  | .neg r | .inc r | .dec r => r.num ≤ 15
  | .mov d s | .add d s | .sub d s | .xor d s | .cmp d s | .test d s | .imul d s =>
    d.num ≤ 15 ∧ s.num ≤ 15
  | .load r m | .store m r | .lea r m => r.num ≤ 15 ∧ checkAddress m = .ok ()
  | .ret => True
  | _ => False

theorem names_reg {w r x b : Bool} {n : UInt8} (hb : b = bit3 n) (hn : n ≤ 15) :
    (⟨w, r, x, b⟩ : Extension).Names false (.reg n) := ⟨hb, hn⟩

theorem names_mem {w r : Bool} {a : Address} (h : checkAddress a = .ok ()) :
    (⟨w, r, extX (.mem a), extB (.mem a)⟩ : Extension).Names false (.mem a) := ⟨h, rfl, rfl⟩

/-- Everything the decoder looks at before the operation of a two-register form. -/
theorem decodeInteger_reg {opcode reg rm : UInt8} (h : WideOpcode opcode) (rest : List UInt8) :
    decodeInteger (op64Reg [opcode] reg rm ++ rest) =
      decodeWide opcode ⟨true, bit3 reg, false, bit3 rm⟩ (rmBytes reg (.reg rm) true ++ rest) := by
  simpa [op64Reg] using decodeInteger_wide (bit3 reg) false (bit3 rm) h
    (rmBytes reg (.reg rm) true ++ rest)

theorem op64_mem {opcode : List UInt8} {reg : UInt8} {m : Address} (h : checkAddress m = .ok ()) :
    op64 opcode reg (.mem m) =
      .ok (rex true (bit3 reg) (extX (.mem m)) (extB (.mem m)) ++ opcode ++
        rmBytes reg (.mem m) true) := by
  simp [op64, checkRm, h, pure, Except.pure, bind, Except.bind]

theorem readRm_two {d s : Gpr} {w x : Bool} (h : d.num ≤ 15 ∧ s.num ≤ 15) (rest : List UInt8) :
    readRm false ⟨w, bit3 s.num, x, bit3 d.num⟩ 1 (rmBytes s.num (.reg d.num) true ++ rest) =
      some (low3 s.num, .reg d.num, rest) ∧ extend (bit3 s.num) (low3 s.num) = s.num :=
  ⟨readRm_rmBytes _ (names_reg rfl h.1) (fun _ => rfl) _, extend_low3 h.2⟩

theorem readRm_one {r : Gpr} {ext : UInt8} {w x : Bool} (h : r.num ≤ 15) (rest : List UInt8) :
    readRm false ⟨w, bit3 ext, x, bit3 r.num⟩ 1 (rmBytes ext (.reg r.num) true ++ rest) =
      some (low3 ext, .reg r.num, rest) :=
  readRm_rmBytes _ (names_reg rfl h) (fun _ => rfl) _

theorem readRm_mem {r : Gpr} {m : Address} {w : Bool} (h : r.num ≤ 15 ∧ checkAddress m = .ok ())
    (rest : List UInt8) :
    readRm false ⟨w, bit3 r.num, extX (.mem m), extB (.mem m)⟩ 1
        (rmBytes r.num (.mem m) true ++ rest) = some (low3 r.num, .mem m, rest) ∧
      extend (bit3 r.num) (low3 r.num) = r.num :=
  ⟨readRm_rmBytes _ (names_mem h.2) (fun _ => rfl) _, extend_low3 h.1⟩

theorem decodeInteger_aluImm {r : Gpr} (h : r.num ≤ 15) {ext : UInt8} {imm : Int32} {i : Instr}
    (hi : immediateForm? (low3 ext) r imm = some i) (rest : List UInt8) :
    decodeInteger (aluImm ext r imm ++ rest) = some (i, rest) := by
  unfold aluImm
  split
  · rename_i hfits
    rw [List.append_assoc, decodeInteger_reg (by decide)]
    simp [decodeWide, readRm_one h, readInt8_int8Byte hfits, hi]
  · rw [List.append_assoc, decodeInteger_reg (by decide)]
    simp [decodeWide, readRm_one h, readInt32_le32, hi]

theorem decodeInteger_movImm {r : Gpr} (h : r.num ≤ 15) (imm : Int64) (rest : List UInt8) :
    decodeInteger (movImmBytes r imm ++ rest) = some (.movImm r imm, rest) := by
  unfold movImmBytes
  split
  · rename_i hfits
    rw [List.append_assoc, decodeInteger_reg (by decide), ← toUInt32_toInt32]
    simp +decide [decodeWide, readRm_one h, readInt32_le32, toInt32_inverse hfits]
  · obtain ⟨hopcode, hnum, hrex, hret⟩ :=
      opcode_low3 (.inr (.inr rfl) : (0xB8 : UInt8) = 0x50 ∨ _ ∨ _) r.num
    simp +decide [-UInt64.toUInt8_toUInt32, -UInt64.toInt64_or, -UInt64.toUInt64_toUInt32,
      decodeInteger, takeRex_rex _ _ _ _ hrex, hopcode, hnum, hret, le64, le32, word64_halves,
      extend_low3 h]

theorem decodeInteger_chunk {i : Instr} (h : i.Integer) (rest : List UInt8) :
    decodeInteger (i.chunk.bytes ++ rest) = some (i.canonical, rest) := by
  cases i with
  | mov d s | add d s | sub d s | xor d s | cmp d s | test d s =>
    obtain ⟨hrm, hreg⟩ := readRm_two (w := true) (x := false) h rest
    simp only [Instr.chunk]
    rw [decodeInteger_reg (by decide)]
    simp [decodeWide, hrm, hreg, Instr.canonical]
  | imul d s =>
    obtain ⟨hrm, hreg⟩ := readRm_two (w := true) (x := false) ⟨h.2, h.1⟩ rest
    have hrex : (0x0F : UInt8) &&& 0xF0 ≠ 0x40 := by decide
    simp +decide [Instr.chunk, op64Reg, decodeInteger, takeRex_rex _ _ _ _ hrex, hrm, hreg,
      Instr.canonical]
  | load r m | store m r | lea r m =>
    obtain ⟨hrm, hreg⟩ := readRm_mem (w := true) h rest
    simp only [Instr.chunk, op64_mem h.2, Code.Chunk.ofExcept, List.append_assoc,
      List.cons_append, List.nil_append]
    rw [decodeInteger_wide _ _ _ (by decide)]
    simp [decodeWide, hrm, hreg, Instr.canonical]
  | push r =>
    obtain ⟨hopcode, hnum, hrex, -⟩ :=
      opcode_low3 (.inl rfl : (0x50 : UInt8) = 0x50 ∨ _ ∨ _) r.num
    simp [Instr.chunk, opReg, decodeInteger, takeRex_rex _ _ _ _ hrex, hopcode, hnum,
      extend_low3 h, Instr.canonical]
  | pop r =>
    obtain ⟨hopcode, hnum, hrex, -⟩ :=
      opcode_low3 (.inr (.inl rfl) : (0x58 : UInt8) = 0x50 ∨ _ ∨ _) r.num
    simp [Instr.chunk, opReg, decodeInteger, takeRex_rex _ _ _ _ hrex, hopcode, hnum,
      extend_low3 h, Instr.canonical]
  | addImm r imm | subImm r imm | cmpImm r imm => exact decodeInteger_aluImm h rfl rest
  | movImm r imm => exact decodeInteger_movImm h imm rest
  | shlImm r n =>
    simp only [Instr.chunk, List.append_assoc]
    rw [decodeInteger_reg (by decide)]
    simp +decide [decodeWide, readRm_one h, Instr.canonical]
  | neg r | inc r | dec r =>
    simp only [Instr.chunk]
    rw [decodeInteger_reg (by decide)]
    simp +decide [decodeWide, readRm_one h, Instr.canonical]
  | ret => simp +decide [Instr.chunk, decodeInteger, takeRex, Instr.canonical]
  | _ => exact h.elim

-- ---------------------------------------------------------------------------
-- Vector instructions
-- ---------------------------------------------------------------------------

theorem takePrefix_bytes (pp : Pp) (r x b : Bool) (rest : List UInt8) :
    takePrefix (pp.bytes ++ (rex false r x b ++ 0x0F :: rest)) =
      (pp, rex false r x b ++ 0x0F :: rest) := by
  cases pp <;> cases r <;> cases x <;> cases b <;> rfl

theorem decodeVector_legacy (rules : Rules) (pp : Pp) (r x b : Bool) (rest : List UInt8) :
    decodeVector rules (pp.bytes ++ (rex false r x b ++ 0x0F :: rest)) =
      decodeSse rules (pp.bytes ++ (rex false r x b ++ 0x0F :: rest)) := by
  cases pp <;> cases r <;> cases x <;> cases b <;> rfl

/-- A byte that the legacy map leaves to the two larger maps. -/
def Opcode.IsEscape (op : Opcode) : Prop := op.map = .m0F ∧ (op.byte = 0x38 ∨ op.byte = 0x3A)

theorem takeOpcode_bytes {op : Opcode} (h : ¬ op.IsEscape) (rest : List UInt8) :
    takeOpcode (op.map.bytes ++ op.byte :: rest) = some (op.map, op.byte, rest) := by
  rcases op with ⟨pp, map, byte⟩
  cases map with
  | m0F =>
    simp only [Opcode.IsEscape, true_and, not_or] at h
    simp [OpMap.bytes, takeOpcode, h]
  | m0F38 | m0F3A => rfl

theorem takeImm_toList (imm : Option UInt8) (rest : List UInt8) :
    takeImm imm.isSome (imm.toList ++ rest) = some (imm, rest) := by
  cases imm <;> rfl

theorem names_of_checkRm {rm : Rm} (hreg : regAbove 15 rm = false) (hrm : checkRm rm = .ok ())
    (w r : Bool) : (⟨w, r, extX rm, extB rm⟩ : Extension).Names false rm := by
  cases rm with
  | reg n => exact ⟨rfl, by simpa [regAbove] using hreg⟩
  | mem a => exact ⟨hrm, rfl, rfl⟩

theorem names_of_evex {rm : Rm} (hreg : regAbove 31 rm = false) (hrm : checkRm rm = .ok ())
    (w r : Bool) : (⟨w, r, evexX rm, extB rm⟩ : Extension).Names true rm := by
  cases rm with
  | reg n => exact ⟨rfl, by simpa [regAbove] using hreg, rfl⟩
  | mem a => exact ⟨hrm, rfl, rfl⟩

theorem map_code (m : OpMap) : map? m.code = some m := by cases m <;> rfl

theorem prefix_code (pp : Pp) : prefix? pp.code = pp := by cases pp <;> rfl

/-- The last byte of a VEX head, and the third one of an EVEX head. -/
theorem head_fields (top l : Bool) (pp : Pp) {vvvv : UInt8} (h : vvvv ≤ 31) :
    let head := flag top 7 ||| ((~~~vvvv &&& 0xF) <<< 3 ||| flag l 2 ||| pp.code)
    hasBit head 7 = top ∧ hasBit head 2 = l ∧ head &&& 3 = pp.code ∧
      ~~~head >>> 3 &&& 0xF = vvvv &&& 0xF ∧ head &&& 4 = flag l 2 := by
  have all : ∀ v : Fin 32, ∀ top l : Bool, ∀ pp ∈ [Pp.none, .p66, .pF3, .pF2],
      let head := flag top 7 ||| ((~~~UInt8.ofNat v &&& 0xF) <<< 3 ||| flag l 2 ||| pp.code)
      hasBit head 7 = top ∧ hasBit head 2 = l ∧ head &&& 3 = pp.code ∧
        ~~~head >>> 3 &&& 0xF = UInt8.ofNat v &&& 0xF ∧ head &&& 4 = flag l 2 := by
    decide +kernel
  simpa using all ⟨_, Nat.lt_succ_of_le h⟩ top l pp (by cases pp <;> decide)

/-- The second byte of a three-byte VEX head, and of an EVEX head where `r'` belongs to it. -/
theorem map_fields (r x b r' : Bool) (m : OpMap) :
    let byte := flag r 7 ||| flag x 6 ||| flag b 5 ||| flag r' 4 ||| m.code
    hasBit byte 7 = r ∧ hasBit byte 6 = x ∧ hasBit byte 5 = b ∧ hasBit byte 4 = r' ∧
      byte &&& 7 = m.code ∧ byte &&& 8 = 0 ∧ (r' = false → byte &&& 0x1F = m.code) := by
  cases m <;> revert r x b r' <;> decide +kernel

theorem last_fields (v : Bool) :
    (0x40 ||| flag v 3) &&& 0xF7 = 0x40 ∧ hasBit (0x40 ||| flag v 3) 3 = v := by
  cases v <;> decide

/-- Vector instructions that their form can name, with an immediate byte where one belongs. -/
def Instr.Vector (rules : Rules) : Instr → Prop
  | .sse op reg rm imm =>
    reg ≤ 15 ∧ regAbove 15 rm = false ∧ checkRm rm = .ok () ∧ imm.isSome = rules.hasImm op ∧
      ¬ op.IsEscape
  | .vex op _ _ reg vvvv rm imm =>
    (reg ≤ 15 ∧ vvvv ≤ 15) ∧ regAbove 15 rm = false ∧ checkRm rm = .ok () ∧
      imm.isSome = rules.hasImm op
  | .evex op _ reg vvvv rm imm =>
    (reg ≤ 31 ∧ vvvv ≤ 31) ∧ regAbove 31 rm = false ∧ checkRm rm = .ok () ∧
      imm.isSome = rules.hasImm op
  | _ => False

theorem sseBytes_eq {op : Opcode} {reg : UInt8} {rm : Rm} (imm : Option UInt8) (hreg : reg ≤ 15)
    (hrm : regAbove 15 rm = false) (h : checkRm rm = .ok ()) :
    sseBytes op reg rm imm = .ok (op.pp.bytes ++ rex false (bit3 reg) (extX rm) (extB rm) ++
      op.map.bytes ++ [op.byte] ++ rmBytes reg rm true ++ imm.toList) := by
  simp [sseBytes, UInt8.not_lt.mpr hreg, hrm, h, bind, Except.bind, pure, Except.pure]

theorem vexBytes_eq {op : Opcode} {w l256 : Bool} {reg vvvv : UInt8} {rm : Rm}
    (imm : Option UInt8) (hreg : reg ≤ 15) (hv : vvvv ≤ 15) (hrm : regAbove 15 rm = false)
    (h : checkRm rm = .ok ()) :
    vexBytes op w l256 reg vvvv rm imm =
      .ok (vexHead op w l256 reg vvvv rm ++ [op.byte] ++ rmBytes reg rm true ++ imm.toList) := by
  simp [vexBytes, UInt8.not_lt.mpr hreg, UInt8.not_lt.mpr hv, hrm, h, bind, Except.bind, pure,
    Except.pure]

theorem evexBytes_eq {op : Opcode} {w : Bool} {reg vvvv : UInt8} {rm : Rm}
    (imm : Option UInt8) (hreg : reg ≤ 31) (hv : vvvv ≤ 31) (hrm : regAbove 31 rm = false)
    (h : checkRm rm = .ok ()) :
    evexBytes op w reg vvvv rm imm =
      .ok (evexHead op w reg vvvv rm ++ [op.byte] ++ rmBytes reg rm false ++ imm.toList) := by
  simp [evexBytes, UInt8.not_lt.mpr hreg, UInt8.not_lt.mpr hv, hrm, h, bind, Except.bind, pure,
    Except.pure]

theorem decodeVector_sse {rules : Rules} {op : Opcode} {reg : UInt8} {rm : Rm}
    {imm : Option UInt8} (h : (Instr.sse op reg rm imm).Vector rules) (rest : List UInt8) :
    decodeVector rules ((Instr.sse op reg rm imm).chunk.bytes ++ rest) =
      some (.sse op reg rm imm, rest) := by
  obtain ⟨hreg, habove, hrm, himm, hescape⟩ := h
  have hmap : ∃ tail, op.map.bytes ++ op.byte :: (rmBytes reg rm true ++ (imm.toList ++ rest)) =
      0x0F :: tail := by cases op.map <;> exact ⟨_, rfl⟩
  obtain ⟨tail, htail⟩ := hmap
  have hnames := names_of_checkRm habove hrm false (bit3 reg)
  simp only [Instr.chunk, sseBytes_eq imm hreg habove hrm, Code.Chunk.ofExcept, List.append_assoc,
    List.cons_append, List.nil_append]
  rw [htail, decodeVector_legacy]
  simp only [decodeSse, takePrefix_bytes,
    takeRex_rex _ _ _ _ (by decide : (0x0F : UInt8) &&& 0xF0 ≠ 0x40)]
  simp [← htail, takeOpcode_bytes hescape, readRm_rmBytes reg hnames, ← himm, takeImm_toList,
    extend_low3 hreg]

theorem decodeVexTail_bytes {rules : Rules} {op : Opcode} {w l256 : Bool} {reg vvvv : UInt8}
    {rm : Rm} {imm : Option UInt8} (top : Bool)
    (h : (Instr.vex op w l256 reg vvvv rm imm).Vector rules) (rest : List UInt8) :
    decodeVexTail rules ⟨w, bit3 reg, extX rm, extB rm⟩ op.map
        (flag top 7 ||| ((~~~vvvv &&& 0xF) <<< 3 ||| flag l256 2 ||| op.pp.code))
        (op.byte :: (rmBytes reg rm true ++ (imm.toList ++ rest))) =
      some (.vex op w l256 reg vvvv rm imm, rest) := by
  obtain ⟨⟨hreg, hv⟩, habove, hrm, himm⟩ := h
  obtain ⟨-, hl, hpp, hvvvv, -⟩ := head_fields top l256 op.pp (UInt8.le_trans hv (by decide))
  have hnames := names_of_checkRm habove hrm w (bit3 reg)
  simp [decodeVexTail, hl, hpp, hvvvv, prefix_code, readRm_rmBytes reg hnames, ← himm,
    takeImm_toList, extend_low3 hreg, and_15 hv]

theorem decodeVector_vex {rules : Rules} {op : Opcode} {w l256 : Bool} {reg vvvv : UInt8} {rm : Rm}
    {imm : Option UInt8} (h : (Instr.vex op w l256 reg vvvv rm imm).Vector rules)
    (rest : List UInt8) :
    decodeVector rules ((Instr.vex op w l256 reg vvvv rm imm).chunk.bytes ++ rest) =
      some (.vex op w l256 reg vvvv rm imm, rest) := by
  have htail := fun top => decodeVexTail_bytes top h rest
  obtain ⟨⟨hreg, hv⟩, habove, hrm, himm⟩ := h
  simp only [Instr.chunk, vexBytes_eq imm hreg hv habove hrm, Code.Chunk.ofExcept,
    List.append_assoc, List.cons_append, List.nil_append, vexHead]
  split
  · -- the two-byte head says that the other bits are clear
    rename_i hshort
    simp only [Bool.not_eq_eq_eq_not, Bool.not_true] at hshort
    obtain ⟨hmap, rfl, hx, hb⟩ := hshort
    obtain ⟨hr, -⟩ := head_fields (!bit3 reg) l256 op.pp (UInt8.le_trans hv (by decide))
    have htail := htail (!bit3 reg)
    rw [hmap, hx, hb] at htail
    simpa [decodeVector, hr] using htail
  · obtain ⟨hw, -⟩ := head_fields w l256 op.pp (UInt8.le_trans hv (by decide))
    obtain ⟨hr, hx, hb, -, -, -, hmap⟩ :=
      map_fields (!bit3 reg) (!extX rm) (!extB rm) false op.map
    have hflag : flag false 4 = 0 := rfl
    simp only [hflag, UInt8.or_zero] at hr hx hb hmap
    simp [decodeVector, hmap, map_code, hw, hr, hx, hb, htail]

theorem decodeVector_evex {rules : Rules} {op : Opcode} {w : Bool} {reg vvvv : UInt8} {rm : Rm}
    {imm : Option UInt8} (h : (Instr.evex op w reg vvvv rm imm).Vector rules)
    (rest : List UInt8) :
    decodeVector rules ((Instr.evex op w reg vvvv rm imm).chunk.bytes ++ rest) =
      some (.evex op w reg vvvv rm imm, rest) := by
  obtain ⟨⟨hreg, hv⟩, habove, hrm, himm⟩ := h
  obtain ⟨hr, hx, hb, hr', hmap, hclear, -⟩ :=
    map_fields (!bit3 reg) (!evexX rm) (!extB rm) (!bit4 reg) op.map
  obtain ⟨hw, -, hpp, hvvvv, hfull⟩ := head_fields w true op.pp hv
  obtain ⟨hlast, hv'⟩ := last_fields (!bit4 vvvv)
  have hlen : flag w 7 ||| (~~~vvvv &&& 0xF) <<< 3 ||| (0x04 : UInt8) ||| op.pp.code =
      flag w 7 ||| ((~~~vvvv &&& 0xF) <<< 3 ||| flag true 2 ||| op.pp.code) := by
    simp only [UInt8.or_assoc]
    rfl
  have hnames := names_of_evex habove hrm w (bit3 reg)
  have hnum := extend_wide hreg
  have hvnum := extend_vvvv hv
  simp only [Instr.chunk, evexBytes_eq imm hreg hv habove hrm, Code.Chunk.ofExcept,
    List.append_assoc, List.cons_append, List.nil_append, evexHead, decodeVector, hlen]
  -- from here on only the fields of the three bytes matter
  generalize flag (!bit3 reg) 7 ||| flag (!evexX rm) 6 ||| flag (!extB rm) 5 |||
    flag (!bit4 reg) 4 ||| op.map.code = p0 at *
  generalize flag w 7 ||| ((~~~vvvv &&& 0xF) <<< 3 ||| flag true 2 ||| op.pp.code) = p1 at *
  generalize 0x40 ||| flag (!bit4 vvvv) 3 = p2 at *
  have hfull' : p1 &&& 4 ≠ 0 := by
    rw [hfull]
    decide
  simp [decodeEvexTail, hclear, hfull', hlast, hmap, map_code, hpp, prefix_code, hw, hr, hx, hb,
    readRm_rmBytes reg hnames, ← himm, takeImm_toList, hr', hv', hvvvv, hnum, hvnum]

theorem decodeVector_chunk {rules : Rules} {i : Instr} (h : i.Vector rules) (rest : List UInt8) :
    decodeVector rules (i.chunk.bytes ++ rest) = some (i, rest) := by
  cases i with
  | sse op reg rm imm => exact decodeVector_sse h rest
  | vex op w l256 reg vvvv rm imm => exact decodeVector_vex h rest
  | evex op w reg vvvv rm imm => exact decodeVector_evex h rest
  | _ => exact h.elim

-- ---------------------------------------------------------------------------
-- All instructions
-- ---------------------------------------------------------------------------

theorem decode_eq {rules : Rules} {bytes : List UInt8}
    (h : ∀ rest, bytes ≠ 0xC5 :: 0xF8 :: 0x77 :: rest) :
    decode rules bytes = (decodeBranch bytes <|>
      (decodeInteger bytes <|> decodeVector rules bytes).map fun (i, rest) =>
        (.plain i, rest)) := by
  unfold decode
  split
  · exact absurd rfl (h _)
  · rfl

/-- Not a byte that the branches take from the legacy map, nor the VEX opcode without ModRM. -/
def Instr.Apart : Instr → Prop
  | .sse op .. => op.map = .m0F → op.byte &&& 0xF0 ≠ 0x80
  | .vex op .. => op.byte ≠ 0x77
  | _ => True

theorem legacy_only (pp : Pp) (r x b : Bool) {byte : UInt8} (h : byte &&& 0xF0 ≠ 0x80)
    (rest : List UInt8) :
    let bytes := pp.bytes ++ (rex false r x b ++ 0x0F :: byte :: rest)
    decodeBranch bytes = none ∧ decodeInteger bytes = none ∧
      ∀ rest, bytes ≠ 0xC5 :: 0xF8 :: 0x77 :: rest := by
  cases pp <;> cases r <;> cases x <;> cases b <;>
    simp +decide [Pp.bytes, rex, flag, decodeBranch, decodeInteger, takeRex, hasBit, h]

theorem decode_legacy {rules : Rules} {op : Opcode} {reg : UInt8} {rm : Rm} {imm : Option UInt8}
    (h : (Instr.sse op reg rm imm).Vector rules) (h' : (Instr.sse op reg rm imm).Apart)
    (rest : List UInt8) :
    decode rules ((Instr.sse op reg rm imm).chunk.bytes ++ rest) =
      some (.plain (.sse op reg rm imm), rest) := by
  have hback := decodeVector_sse h rest
  obtain ⟨hreg, habove, hrm, himm, hescape⟩ := h
  have hmap : ∃ byte tail,
      op.map.bytes ++ op.byte :: (rmBytes reg rm true ++ (imm.toList ++ rest)) =
        0x0F :: byte :: tail ∧ byte &&& 0xF0 ≠ 0x80 := by
    cases hm : op.map with
    | m0F => exact ⟨_, _, rfl, h' hm⟩
    | m0F38 | m0F3A => exact ⟨_, _, rfl, by decide⟩
  obtain ⟨byte, tail, htail, hbyte⟩ := hmap
  simp only [Instr.chunk, sseBytes_eq imm hreg habove hrm, Code.Chunk.ofExcept, List.append_assoc,
    List.cons_append, List.nil_append, htail] at hback ⊢
  obtain ⟨hbranch, hinteger, hfirst⟩ :=
    legacy_only op.pp (bit3 reg) (extX rm) (extB rm) hbyte tail
  rw [decode_eq hfirst, hbranch, hinteger, hback]
  rfl

/-- The bytes that open the newer vector formats open nothing else. -/
theorem escape_only {first : UInt8} (h : first = 0xC5 ∨ first = 0xC4 ∨ first = 0x62)
    (rest : List UInt8) :
    decodeBranch (first :: rest) = none ∧ decodeInteger (first :: rest) = none := by
  rcases h with rfl | rfl | rfl <;> simp +decide [decodeBranch, decodeInteger, takeRex]

theorem decode_vex {rules : Rules} {op : Opcode} {w l256 : Bool} {reg vvvv : UInt8} {rm : Rm}
    {imm : Option UInt8} (h : (Instr.vex op w l256 reg vvvv rm imm).Vector rules)
    (h' : (Instr.vex op w l256 reg vvvv rm imm).Apart) (rest : List UInt8) :
    decode rules ((Instr.vex op w l256 reg vvvv rm imm).chunk.bytes ++ rest) =
      some (.plain (.vex op w l256 reg vvvv rm imm), rest) := by
  have hback := decodeVector_vex h rest
  obtain ⟨⟨hreg, hv⟩, habove, hrm, himm⟩ := h
  have hhead : ∃ first tail, (Instr.vex op w l256 reg vvvv rm imm).chunk.bytes ++ rest =
      first :: tail ∧ (first = 0xC5 ∨ first = 0xC4 ∨ first = 0x62) ∧
        ∀ rest, first :: tail ≠ 0xC5 :: 0xF8 :: 0x77 :: rest := by
    simp only [Instr.chunk, vexBytes_eq imm hreg hv habove hrm, Code.Chunk.ofExcept,
      List.append_assoc, List.cons_append, List.nil_append, vexHead]
    split
    · refine ⟨_, _, rfl, .inl rfl, ?_⟩
      intro rest' heq
      injection heq with _ heq
      injection heq with _ heq
      injection heq with hbyte
      exact h' hbyte
    · refine ⟨_, _, rfl, .inr (.inl rfl), ?_⟩
      rintro rest' ⟨⟩
  obtain ⟨first, tail, hbytes, hfirst, hapart⟩ := hhead
  rw [hbytes] at hback ⊢
  obtain ⟨hbranch, hinteger⟩ := escape_only hfirst tail
  rw [decode_eq hapart, hbranch, hinteger, hback]
  rfl

theorem decode_evex {rules : Rules} {op : Opcode} {w : Bool} {reg vvvv : UInt8} {rm : Rm}
    {imm : Option UInt8} (h : (Instr.evex op w reg vvvv rm imm).Vector rules)
    (rest : List UInt8) :
    decode rules ((Instr.evex op w reg vvvv rm imm).chunk.bytes ++ rest) =
      some (.plain (.evex op w reg vvvv rm imm), rest) := by
  have hback := decodeVector_evex h rest
  obtain ⟨⟨hreg, hv⟩, habove, hrm, himm⟩ := h
  simp only [Instr.chunk, evexBytes_eq imm hreg hv habove hrm, Code.Chunk.ofExcept, evexHead,
    List.append_assoc, List.cons_append, List.nil_append] at hback ⊢
  obtain ⟨hbranch, hinteger⟩ := escape_only (.inr (.inr rfl)) _
  rw [decode_eq (by rintro rest' ⟨⟩), hbranch, hinteger, hback]
  rfl

theorem decode_vector {rules : Rules} {i : Instr} (h : i.Vector rules) (h' : i.Apart)
    (rest : List UInt8) : decode rules (i.chunk.bytes ++ rest) = some (.plain i, rest) := by
  cases i with
  | sse op reg rm imm => exact decode_legacy h h' rest
  | vex op w l256 reg vvvv rm imm => exact decode_vex h h' rest
  | evex op w reg vvvv rm imm => exact decode_evex h rest
  | _ => exact h.elim

/-- A first byte that neither a branch nor a VEX instruction has. -/
def Plain (bytes : List UInt8) : Prop :=
  ∃ first tail, bytes = first :: tail ∧ first ≠ 0xE9 ∧ first ≠ 0x0F ∧ first ≠ 0xC5

theorem plain_rex (r x b : Bool) (rest : List UInt8) : Plain (rex true r x b ++ rest) := by
  cases r <;> cases x <;> cases b <;> exact ⟨_, _, rfl, by decide⟩

theorem plain_opReg {opcode : UInt8} (h : opcode = 0x50 ∨ opcode = 0x58) (r : Gpr)
    (rest : List UInt8) : Plain (opReg opcode r ++ rest) := by
  obtain ⟨hopcode, -⟩ := opcode_low3 (h.imp_right .inl) r.num
  unfold opReg
  cases bit3 r.num with
  | true => exact ⟨_, _, rfl, by decide⟩
  | false =>
    refine ⟨_, _, rfl, ?_, ?_, ?_⟩ <;> rintro heq <;> rw [heq] at hopcode <;>
      rcases h with rfl | rfl <;> exact absurd hopcode (by decide)

theorem plain_integer {i : Instr} (h : i.Integer) (rest : List UInt8) :
    Plain (i.chunk.bytes ++ rest) := by
  cases i with
  | push r => exact plain_opReg (.inl rfl) r rest
  | pop r => exact plain_opReg (.inr rfl) r rest
  | load r m | store m r | lea r m =>
    simp only [Instr.chunk, op64_mem h.2, Code.Chunk.ofExcept, List.append_assoc]
    exact plain_rex _ _ _ _
  | addImm r imm | subImm r imm | cmpImm r imm =>
    simp only [Instr.chunk, aluImm]
    split <;> simp only [op64Reg, List.append_assoc] <;> exact plain_rex _ _ _ _
  | movImm r imm =>
    simp only [Instr.chunk, movImmBytes]
    split <;> simp only [op64Reg, List.append_assoc] <;> exact plain_rex _ _ _ _
  | ret => exact ⟨_, _, rfl, by decide⟩
  | mov d s | add d s | sub d s | xor d s | cmp d s | test d s | imul d s | shlImm d s | neg d
  | inc d | dec d =>
    simp only [Instr.chunk, op64Reg, List.append_assoc]
    exact plain_rex _ _ _ _
  | _ => exact h.elim

theorem decode_integer {rules : Rules} {i : Instr} (h : i.Integer) (rest : List UInt8) :
    decode rules (i.chunk.bytes ++ rest) = some (.plain i.canonical, rest) := by
  have hback := decodeInteger_chunk h rest
  obtain ⟨first, tail, hbytes, hjmp, htwo, hvex⟩ := plain_integer h rest
  rw [hbytes] at hback ⊢
  have hbranch : decodeBranch (first :: tail) = none := by
    simp [decodeBranch, hjmp, htwo]
  rw [decode_eq (by rintro rest' ⟨⟩; exact hvex rfl), hbranch, hback]
  rfl

theorem decode_jcc (rules : Rules) (cc : Cond) (distance : Int32) (rest : List UInt8) :
    decode rules (0x0F :: (0x80 ||| cc.code) :: (le32 distance.toUInt32 ++ rest)) =
      some (.jcc cc distance, rest) := by
  have hcode : (0x80 ||| cc.code) &&& 0xF0 = 0x80 ∧
      condition? ((0x80 ||| cc.code) &&& 0x0F) = some cc := by cases cc <;> decide
  rw [decode_eq (by rintro rest' ⟨⟩)]
  simp [decodeBranch, hcode, readInt32_le32]

theorem decode_jmp (rules : Rules) (distance : Int32) (rest : List UInt8) :
    decode rules (0xE9 :: (le32 distance.toUInt32 ++ rest)) = some (.jmp distance, rest) := by
  rw [decode_eq (by rintro rest' ⟨⟩)]
  simp [decodeBranch, readInt32_le32]

end JitGemm.X86
