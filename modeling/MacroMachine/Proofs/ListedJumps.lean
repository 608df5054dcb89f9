import MacroMachine.Proofs.OperandLayout

/-!
# Listings show the jumps

A listing is made without running the program.  This module ties it to the machine: where a branch
or a loop of a listed instruction can take a context, its line says so, and the line that it leads
to is marked.

*Jumps.*  The machine finds the target of a branch by fetching its operand
(`Context.fetchBranch_eq_ok`), the listing by looking at the slot (`branchTarget?_eq_some_iff`).
Both come to the same, so a step that transfers control goes where the listing says
(`jump_of_transfers`).

*Marks.*  A line is marked if and only if some branch operand of a listed opcode leads to it
(`mem_targets_iff`), the operand of a branch that is never taken among them.

*Text.*  A symbol may have any name, so a text alone does not say where its lines begin.  What is
printed is therefore said line by line (`Prints`).
-/

namespace MacroMachine

/-! ## Where a step goes -/

/-- The opcodes that can branch. -/
def Opcode.Branches (op : Opcode) : Prop :=
  op = .branch ∨ op = .branchTrue ∨ op = .branchFalse ∨ op = .iterate

/-- The last operand of an opcode that can branch is its branch operand. -/
theorem Opcode.Branches.last {op : Opcode} (h : op.Branches) :
    ∃ k, op.operandCount = k + 1 ∧ op.operands[k]? = some .branchOffset := by
  rcases h with rfl | rfl | rfl | rfl
  · exact ⟨0, rfl, rfl⟩
  · exact ⟨0, rfl, rfl⟩
  · exact ⟨0, rfl, rfl⟩
  · exact ⟨2, rfl, rfl⟩

namespace Listing

/-- A sum in 64 bits of a position and a distance. -/
theorem toInt_site_add {site : Nat} (hsite : site < 9223372036854775808) (offset : Int64) :
    (Int64.ofNat site + offset).toInt =
      if (site : Int) + offset.toInt < 9223372036854775808 then (site : Int) + offset.toInt
      else (site : Int) + offset.toInt - 18446744073709551616 := by
  have hlow : -9223372036854775808 ≤ offset.toInt := offset.le_toInt
  have hhigh : offset.toInt < 9223372036854775808 := offset.toInt_lt
  have hsize : ((2 ^ 64 : Nat) : Int) = 18446744073709551616 := rfl
  rw [Int64.toInt_add, Int64.toInt_ofNat_of_lt hsite, Int.bmod, hsize]
  omega

/-- The slot at `site` holds the distance from there to `target`. -/
def Leads (code : Array Instruction) (site target : Nat) : Prop :=
  ∃ offset, code[site]? = some (.immediate offset) ∧ (site : Int) + offset.toInt = target

/-- In code whose positions fit in 64 bits, a distance is shown by the position at its end.  A sum
that goes beyond them is negative, so it is no position. -/
theorem branchTarget?_eq_some_iff {code : Array Instruction} {site target : Nat}
    (hcode : code.size < 9223372036854775808) (htarget : target ≤ code.size) :
    branchTarget? code site = some target ↔ Leads code site target := by
  unfold branchTarget? Leads
  cases hslot : code[site]? with
  | none => simp
  | some slot =>
    have hsite := (Array.getElem?_eq_some_iff.1 hslot).1
    cases slot with
    | op op => simp
    | symbol id => simp
    | immediate offset =>
      have hhigh : offset.toInt < 9223372036854775808 := offset.toInt_lt
      have hsum := toInt_site_add (Nat.lt_trans hsite hcode) offset
      dsimp only
      generalize (Int64.ofNat site + offset).toInt = sum at hsum ⊢
      have hleads : (∃ n, some (.immediate offset) = some (Instruction.immediate n) ∧
          (site : Int) + n.toInt = target) ↔ (site : Int) + offset.toInt = target := by simp
      rw [hleads]
      by_cases hpos : 0 ≤ sum
      · simp only [if_pos hpos, Option.some.injEq]
        split at hsum <;> omega
      · simp only [if_neg hpos, reduceCtorEq, false_iff]
        split at hsum <;> omega

/-- An operand of an opcode, by its kind and its place. -/
theorem mem_targetsAt_iff {code : Array Instruction} {position target : Nat} {op : Opcode} :
    target ∈ targetsAt code position op ↔
      ∃ k : Nat, op.operands[k]? = some .branchOffset ∧
        branchTarget? code (position + 1 + k) = some target := by
  unfold targetsAt
  rw [List.mem_filterMap]
  constructor
  · rintro ⟨⟨kind, k⟩, hmem, htarget⟩
    simp only at htarget
    split at htarget
    · next hkind =>
      rw [List.mem_zipIdx_iff_getElem?, hkind] at hmem
      exact ⟨k, hmem, htarget⟩
    · cases htarget
  · rintro ⟨k, hkind, htarget⟩
    exact ⟨(.branchOffset, k), List.mem_zipIdx_iff_getElem?.2 hkind, by simpa using htarget⟩

/-- A place is a target if some branch operand of a listed opcode leads to it. -/
theorem mem_targets_iff {code : Array Instruction} {target : Nat} :
    target ∈ targets code ↔
      ∃ position op, (position, .op op) ∈ positions 0 0 code.toList ∧
        ∃ k : Nat, op.operands[k]? = some .branchOffset ∧
          branchTarget? code (position + 1 + k) = some target := by
  unfold targets
  rw [List.mem_flatMap]
  constructor
  · rintro ⟨⟨position, slot⟩, hlisted, htarget⟩
    cases slot with
    | op op => exact ⟨position, op, hlisted, mem_targetsAt_iff.1 htarget⟩
    | immediate n => cases htarget
    | symbol id => cases htarget
  · rintro ⟨position, op, hlisted, htarget⟩
    exact ⟨(position, .op op), hlisted, mem_targetsAt_iff.2 htarget⟩

end Listing

/-- A context that fetches a branch operand finds the slot to which it leads. -/
theorem Context.fetchBranch_eq_ok {c c' : Context} {target : Nat}
    (h : fetchBranch c = .ok target c') :
    Listing.Leads c.pc.program.program.code c.pc.index target ∧
      target ≤ c.pc.program.program.size := by
  unfold fetchBranch at h
  rcases fetchImmediate_cases c with ⟨offset, hslot, hfetch⟩ | ⟨-, defect, hfetch⟩
  · simp only [hfetch] at h
    split at h
    · next hrange =>
      cases h
      have hle : _ ≤ (c.pc.program.program.size : Int) := hrange.2
      exact ⟨⟨offset, hslot, by omega⟩, by omega⟩
    · cases h
  · simp only [hfetch] at h
    cases h

namespace Execution

variable {host : Host} {nested : Runner} {s t : State} {outcome : Outcome} {op : Opcode}

/-- Fetching a branch operand, as a part of an instruction. -/
theorem fetchBranch_shown {target : Nat} (h : transition Context.fetchBranch s = .ok target t) :
    Listing.Leads s.context.pc.program.program.code s.context.pc.index target ∧
      target ≤ s.context.pc.program.program.size := by
  obtain ⟨c, hfetch, -⟩ := transition_eq_ok h
  exact Context.fetchBranch_eq_ok hfetch

/-- A step goes where the last operand of its opcode leads. -/
def GoesTo (s t : State) (op : Opcode) (target : Nat) : Prop :=
  Listing.Leads s.context.pc.program.program.code (s.context.pc.index + op.operandCount) target ∧
  target ≤ s.context.pc.program.program.size ∧ t.context.pc = s.context.pc.jump target

theorem branch_goesTo (h : branch (s.opened op) = .ok outcome t) :
    ∃ target, GoesTo s t .branch target := by
  obtain ⟨target, s₁, hfetch, h₁⟩ := bind_eq_ok h
  obtain ⟨hshown, hle⟩ := fetchBranch_shown hfetch
  cases Execution.fetchBranch_eq_ok hfetch
  cases h₁
  exact ⟨target, hshown, hle, rfl⟩

theorem branchIf_goesTo {wanted : Bool} {v : Value} {n : Int32}
    (h : branchIf wanted (s.opened op) = .ok outcome t) (hback : s.context.stack.back? = some v)
    (hn : v.toInt = .ok n) (htaken : ((n != 0) == wanted) = true) :
    ∃ target, GoesTo s t (if wanted then .branchTrue else .branchFalse) target := by
  obtain ⟨target, s₁, hfetch, h₁⟩ := bind_eq_ok h
  obtain ⟨hshown, hle⟩ := fetchBranch_shown hfetch
  cases Execution.fetchBranch_eq_ok hfetch
  obtain ⟨v', s₂, hpop, h₂⟩ := bind_eq_ok h₁
  obtain ⟨hback', hpc⟩ := pop_eq_ok hpop
  cases hback.symm.trans hback'
  obtain ⟨n', s₃, hconvert, h₃⟩ := bind_eq_ok h₂
  obtain ⟨rfl, hn'⟩ := convert_eq_ok hconvert
  cases hn.symm.trans hn'
  rw [if_pos htaken] at h₃
  cases h₃
  refine ⟨target, by cases wanted <;> exact hshown, hle, ?_⟩
  show s₃.context.pc.jump target = _
  rw [hpc]
  rfl

/-- An exhausted iterator yields no key. -/
theorem advance_of_exhausted {place : Place} {it : Iterator} {key : Option String}
    (h : advance place it s = .ok key t) (hcursor : it.cursor = none) : key = none := by
  obtain ⟨w, s₁, hworld, h₁⟩ := bind_eq_ok h
  cases hworld
  rw [show it.next s.world.store = .ok (none, it) by rw [Iterator.next, hcursor]] at h₁
  obtain ⟨_, s₂, -, hpure⟩ := bind_eq_ok h₁
  cases hpure
  rfl

theorem iterate_goesTo {id : SymbolId} {symbol : Symbol} {offset : Nat} {it : Iterator}
    (h : iterate (s.opened op) = .ok outcome t)
    (hname : (s.context.pc.advance 2).slot? = some (.symbol id))
    (hget : s.world.symbols.get? id = some symbol) (hoffset : symbol.frameOffset = .ok offset)
    (hlocal : s.context.localValue offset = .ok (.iterator it)) (hcursor : it.cursor = none) :
    ∃ target, GoesTo s t .iterate target := by
  obtain ⟨itemId, s₁, hitem, h₁⟩ := bind_eq_ok h
  obtain ⟨-, rfl⟩ := fetchSymbol_eq_ok hitem
  obtain ⟨iteratorId, s₂, hiterator, h₂⟩ := bind_eq_ok h₁
  obtain ⟨hslot, rfl⟩ := fetchSymbol_eq_ok hiterator
  cases (show _ = some (Instruction.symbol id) from hname).symm.trans hslot
  obtain ⟨exit, s₃, hexit, h₃⟩ := bind_eq_ok h₂
  obtain ⟨hshown, hle⟩ := fetchBranch_shown hexit
  cases Execution.fetchBranch_eq_ok hexit
  obtain ⟨item, s₄, hplace, h₄⟩ := bind_eq_ok h₃
  cases place?_eq_ok hplace
  cases item with
  | none => cases h₄
  | some item =>
    obtain ⟨place, s₅, hiterator', h₅⟩ := bind_eq_ok h₄
    obtain ⟨rfl, symbol', offset', hget', hoffset', rfl⟩ := iteratorPlace_eq_ok hiterator'
    cases hget.symm.trans hget'
    cases hoffset.symm.trans hoffset'
    obtain ⟨v, s₆, hread, h₆⟩ := bind_eq_ok h₅
    obtain ⟨rfl, hv⟩ := view_eq_ok hread
    cases hlocal.symm.trans hv
    obtain ⟨_, s₇, hwrite, h₇⟩ := bind_eq_ok h₆
    obtain ⟨key, s₈, hadvance, h₈⟩ := bind_eq_ok h₇
    obtain ⟨hpc, -⟩ := advance_eq_ok hadvance
    cases advance_of_exhausted hadvance hcursor
    cases h₈
    refine ⟨exit, hshown, hle, ?_⟩
    show s₈.context.pc.jump exit = _
    rw [hpc, Advances.write item .unset _ _ s₇ hwrite]
    rfl

/-- A branch or a loop that transfers control goes where its operand leads. -/
theorem jump_of_transfers (hop : s.context.pc.slot? = some (.op op)) (hbranches : op.Branches)
    (h : step host nested s = .ok outcome t) (htransfers : s.Transfers host nested) :
    ∃ target, GoesTo s t op target := by
  rw [step_of_opcode hop] at h
  have hnext : ∀ {other : Opcode}, s.context.nextIs other → op = other := by
    intro other hnext
    have hslot := hop.symm.trans (Effects.nextIs_iff.1 hnext)
    exact Instruction.op.inj (Option.some.inj hslot)
  cases htransfers with
  | branch hbranch =>
    obtain rfl := hnext hbranch
    exact branch_goesTo h
  | @taken wanted v n hbranch hback hn htaken =>
    obtain rfl := hnext hbranch
    cases wanted with
    | true => exact @branchIf_goesTo s t outcome .branchTrue _ v n h hback hn htaken
    | false => exact @branchIf_goesTo s t outcome .branchFalse _ v n h hback hn htaken
  | exhausted hiterate hname hget hoffset hlocal hcursor =>
    obtain rfl := hnext hiterate
    exact iterate_goesTo h hname hget hoffset hlocal hcursor
  | call hcall =>
    obtain rfl := hnext hcall
    simp [Opcode.Branches] at hbranches
  | returns hreturns =>
    rcases hreturns with hend | hreturn | hreturn
    · cases hop.symm.trans hend
    · obtain rfl := hnext hreturn
      simp [Opcode.Branches] at hbranches
    · obtain rfl := hnext hreturn
      simp [Opcode.Branches] at hbranches
  | native hcall =>
    obtain rfl := hnext hcall
    simp [Opcode.Branches] at hbranches
  | property hread =>
    obtain rfl := hnext hread
    simp [Opcode.Branches] at hbranches

end Execution

/-! ## What a listing prints -/

namespace Layout

/-- A digit is no white space. -/
theorem whitespace_digit {c : Char} (h : c.isDigit) : CharClass.whitespace.contains c = false := by
  obtain ⟨hlow, hhigh⟩ : 48 ≤ c.toNat ∧ c.toNat ≤ 57 := by
    simpa [Char.isDigit, UInt32.le_iff_toNat_le] using h
  simp [CharClass.Ranges.contains, CharClass.whitespace]
  omega

/-- The decimal digits of a number, with zeros before them as far as the width wants it. -/
structure Spells (width n : Nat) (digits : List Char) : Prop where
  decimal : ∀ c ∈ digits, c.isDigit
  value : Nat.ofDigitChars 10 digits 0 = n
  wide : width ≤ digits.length
  /-- A number that needs more digits has no zeros before them. -/
  plain : width < digits.length → 1 < digits.length → digits.head? ≠ some '0'

/-- The first digit of a number is no zero, unless it is the only one. -/
theorem head?_toDigits {n : Nat} (h : 0 < n) : (Nat.toDigits 10 n).head? ≠ some '0' := by
  induction n using Nat.strongRecOn with
  | ind n ih =>
    rw [Nat.toDigits_eq_if (by decide)]
    split
    · next hlt =>
      have hdigit : ∀ m : Fin 10, 0 < m.val → [m.val.digitChar].head? ≠ some '0' := by decide
      exact hdigit ⟨n, hlt⟩ h
    · have hne : Nat.toDigits 10 (n / 10) ≠ [] := Nat.toDigits_ne_nil
      rw [List.head?_append, List.head?_eq_some_head hne, Option.some_or,
        ← List.head?_eq_some_head hne]
      exact ih (n / 10) (by omega) (by omega)

theorem toList_zeroPadded (width n : Nat) :
    (zeroPadded width n).toList =
      List.replicate (width - (Nat.toDigits 10 n).length) '0' ++ Nat.toDigits 10 n := by
  simp [zeroPadded, ← String.length_toList]

theorem ofDigitChars_replicate (k : Nat) : Nat.ofDigitChars 10 (List.replicate k '0') 0 = 0 := by
  induction k with
  | zero => rfl
  | succ k ih =>
    rw [List.replicate_succ, Nat.ofDigitChars_cons]
    exact ih

theorem spells_zeroPadded (width n : Nat) : Spells width n (zeroPadded width n).toList where
  decimal c hc := by
    rw [toList_zeroPadded, List.mem_append, List.mem_replicate] at hc
    rcases hc with ⟨-, rfl⟩ | hc
    · rfl
    · exact Nat.isDigit_of_mem_toDigits (by decide) (by decide) hc
  value := by
    rw [toList_zeroPadded, Nat.ofDigitChars_append, ofDigitChars_replicate,
      Nat.ofDigitChars_ten_toDigits]
  wide := by
    rw [toList_zeroPadded, List.length_append, List.length_replicate]
    omega
  plain hwide hlong := by
    rw [toList_zeroPadded, List.length_append, List.length_replicate] at hwide hlong
    have hnone : width - (Nat.toDigits 10 n).length = 0 := by omega
    rw [toList_zeroPadded, hnone]
    refine head?_toDigits (Nat.pos_of_ne_zero ?_)
    rintro rfl
    rw [hnone] at hlong
    exact absurd hlong (by decide)

/-- A text that ends in a padded number has no white space at its end. -/
theorem trimEnd_append_zeroPadded (text : String) (width n : Nat) :
    trimEnd (text ++ zeroPadded width n) = text ++ zeroPadded width n := by
  obtain ⟨front, last, heq⟩ : ∃ front last, (zeroPadded width n).toList = front ++ [last] := by
    rw [toList_zeroPadded, ← List.dropLast_concat_getLast (@Nat.toDigits_ne_nil n 10),
      ← List.append_assoc]
    exact ⟨_, _, rfl⟩
  have hdigit : last.isDigit := (spells_zeroPadded width n).decimal last (by simp [heq])
  have hlist : (text ++ zeroPadded width n).toList.reverse =
      last :: (text.toList ++ front).reverse := by
    rw [String.toList_append, heq]
    simp
  rw [trimEnd, hlist, List.dropWhile_cons_of_neg (by simp [whitespace_digit hdigit]), ← hlist,
    List.reverse_reverse, String.ofList_toList]

end Layout

namespace Listing

variable {table : SymbolTable} {p : Program}

/-- What a listing prints for a line. -/
def printed (p : Program) (line : Line) : String :=
  if line.position < p.size then line.renderInside else line.render

/-- A listing has a line, and prints `shown` for it after the lines before it. -/
def Prints (table : SymbolTable) (p : Program) (line : Line) (shown : String) : Prop :=
  ∃ before after, lines table p = before ++ line :: after ∧
    render table p =
      String.join (before.map (printed p)) ++ shown ++ String.join (after.map (printed p))

theorem prints_of_mem {line : Line} (h : line ∈ lines table p) :
    Prints table p line (printed p line) := by
  obtain ⟨before, after, hlines⟩ := List.append_of_mem h
  refine ⟨before, after, hlines, ?_⟩
  have hrender : render table p = String.join ((lines table p).map (printed p)) := rfl
  rw [hrender, hlines, ← String.toList_inj]
  simp [String.toList_join]

theorem slotLine_mem (table : SymbolTable) {position : Nat} {slot : Instruction}
    (h : (position, slot) ∈ positions 0 0 p.code.toList) :
    slotLine table p position slot ∈ lines table p :=
  mem_lines_iff.2 (.inl ⟨position, slot, h, rfl⟩)

theorem position_le_of_mem_lines {line : Line} (h : line ∈ lines table p) :
    line.position ≤ p.size := by
  rcases mem_lines_iff.1 h with ⟨position, slot, hlisted, rfl⟩ | ⟨-, rfl⟩
  · obtain ⟨k, hk, hslot⟩ := slot_of_mem_positions hlisted
    have hlt : k < p.size := (List.getElem?_eq_some_iff.1 hslot).1
    show position ≤ p.size
    omega
  · exact Nat.le_refl p.size

/-- A line is marked if its position is a target. -/
theorem marked_iff {line : Line} (h : line ∈ lines table p) :
    line.marked ↔ line.position ∈ targets p.code := by
  rcases mem_lines_iff.1 h with ⟨position, slot, -, rfl⟩ | ⟨hend, rfl⟩
  · exact List.contains_iff_mem
  · exact iff_of_true rfl hend

/-- The line of an opcode that can branch ends in its branch operand. -/
theorem instructionText_of_branches (table : SymbolTable) (code : Array Instruction)
    (position : Nat) {op : Opcode} (h : op.Branches) :
    ∃ operands, instructionText table code position op =
      Layout.padRight 12 op.mnemonic ++ operands ++
        branchOperand code (position + op.operandCount) := by
  rcases h with rfl | rfl | rfl | rfl
  · exact ⟨"", by rw [String.append_empty]; rfl⟩
  · exact ⟨"", by rw [String.append_empty]; rfl⟩
  · exact ⟨"", by rw [String.append_empty]; rfl⟩
  · refine ⟨symbolOperand table code[position + 1 + 0]? ++ " in " ++
      symbolOperand table code[position + 1 + 1]? ++ " else ", ?_⟩
    rw [String.append_assoc]
    rfl

/-- The line of an opcode that can branch shows where its operand leads. -/
theorem slotText_of_target (table : SymbolTable) {position target : Nat} {op : Opcode}
    (hbranches : op.Branches)
    (htarget : branchTarget? p.code (position + op.operandCount) = some target) :
    ∃ operands, slotText table p.code position (.op op) =
      Layout.padRight 12 op.mnemonic ++ operands ++ "-> " ++ Layout.zeroPadded 4 target := by
  obtain ⟨operands, htext⟩ := instructionText_of_branches table p.code position hbranches
  rw [branchOperand, htarget, ← String.append_assoc] at htext
  refine ⟨operands, ?_⟩
  rw [slotText, htext]
  exact Layout.trimEnd_append_zeroPadded _ 4 target

/-- The line to which a branch operand of a listed opcode leads is marked. -/
theorem target_of_branches {position target : Nat} {op : Opcode}
    (hlisted : (position, .op op) ∈ positions 0 0 p.code.toList) (hbranches : op.Branches)
    (htarget : branchTarget? p.code (position + op.operandCount) = some target) :
    target ∈ targets p.code := by
  obtain ⟨k, hcount, hkind⟩ := hbranches.last
  rw [hcount, Nat.add_comm k, ← Nat.add_assoc] at htarget
  exact mem_targets_iff.2 ⟨position, op, hlisted, k, hkind, htarget⟩

/-- A line as it is printed: a marked one within the code has a rule above it. -/
theorem printed_eq (p : Program) (line : Line) :
    printed p line =
      (if line.marked ∧ line.position < p.size then separator else "") ++
        (Layout.zeroPadded 4 line.position ++ " " ++ (if line.marked then "► " else "  ") ++
          line.text ++ "\n") := by
  unfold printed
  by_cases hinside : line.position < p.size
  · rw [if_pos hinside, Line.renderInside]
    simp only [hinside, and_true]
    rfl
  · rw [if_neg hinside, if_neg fun hboth => hinside hboth.2, String.empty_append]
    rfl

end Listing

namespace Sample

/-- A macro that skips a slot if the top value is true, and otherwise goes back to it for ever. -/
def skipOrRepeat : ProgramRef :=
  ⟨0, ⟨#[.op .branchTrue, .immediate 4, .op .duplicate, .op .branch, .immediate (-2)], []⟩⟩

/-- The macro with its stack, at a position of its code. -/
def skipOrRepeatAt (position : Nat) (stack : Array Value) : State :=
  ⟨World.ofSymbols .empty, ⟨stack, 16, 0, ⟨skipOrRepeat, position⟩, none, none⟩⟩

end Sample

example : Listing.lines .empty Sample.skipOrRepeat.program =
    [⟨0, false, "BRANCH_TRUE -> 0005"⟩, ⟨2, true, "DUP"⟩, ⟨3, false, "BRANCH      -> 0002"⟩,
      ⟨5, true, "<end>"⟩] := by
  decide +kernel

/-- A distance beyond 64 bits leads nowhere. -/
example : Listing.branchOperand #[.op .branch, .immediate 9223372036854775807] 1 =
    "-> <bad offset>" := by
  decide +kernel

end MacroMachine
