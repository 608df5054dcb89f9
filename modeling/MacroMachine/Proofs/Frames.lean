import MacroMachine.Proofs.Instructions

/-!
# The chain of frames

The frames of a macro share one stack with its operands, and nothing but a convention of offsets
tells them apart.  Each frame saves the frame pointer of its caller, so the frames form a chain.
This module shows that the chain stays intact in every run whose instructions find their operands
in the current frame, however the run is cut into slices and whatever routines do meanwhile.

*Roots.*  The chain is followed down to a given frame, its *root*, and what lies below the arguments
of the root is compared with an earlier stack.  With the outermost frame as the root this is the
whole chain.  With the frame of a call as the root it tells that the call leaves its caller alone.

*Counts.*  A frame saves the number of its arguments as a signed 32-bit number.  A number that does
not fit is saved as another one, smaller or negative, so the frames stay chained all the same.  But
a frame with a negative count cannot be read or left.

*Spoiled frames.*  Where instructions reach beyond their frame there is no chain.  What is left is
the limit on the size of the stack (`limitDiscipline`).
-/

namespace MacroMachine

/-- A frame: its frame pointer, the number of its arguments, and what it saves of its caller. -/
structure Frame where
  fp : Nat
  count : Nat
  returnTo : Option CodeAddress
  caller : Option Nat

/-- Where the arguments of the frame begin. -/
def Frame.base (f : Frame) : Nat :=
  f.fp - (4 + f.count)

/-- The bookkeeping slots of the frame lie on a stack, over its arguments.  If frames are `counted`,
the number of the arguments is saved as it is. -/
structure Frame.On (counted : Prop) (f : Frame) (stack : Array Value) : Prop where
  address : stack[f.fp - 4]? = some (.address f.returnTo)
  frame : stack[f.fp - 3]? = some (.frame f.caller)
  count : stack[f.fp - 2]? = some (Value.ofNat f.count)
  cache : stack[f.fp - 1]? = some .unset ∨ ∃ ref, stack[f.fp - 1]? = some (.array ref)
  room : 4 + f.count ≤ f.fp
  few : counted → f.count < 2147483648

/-- The frames from one frame pointer down to the root, each followed by its caller, which lies
below its arguments. -/
inductive FrameChain (counted : Prop) (root : Frame) (stack : Array Value) :
    Nat → List Nat → Prop where
  | root : root.On counted stack → FrameChain counted root stack root.fp [root.fp]
  | inner {f : Frame} {returnTo : CodeAddress} {caller : Nat} {fps : List Nat} :
      f.On counted stack → f.returnTo = some returnTo → f.caller = some caller → caller ≤ f.base →
      FrameChain counted root stack caller fps → FrameChain counted root stack f.fp (f.fp :: fps)

variable {counted : Prop} {f root : Frame} {stack stack' old : Array Value} {limit limit' fp : Nat}
  {fps : List Nat}

/-! ## Frames -/

/-- A saved number of arguments is the number itself or a smaller one. -/
theorem toNat_ofNat_le (count : Nat) : (Int32.ofNat count).toInt.toNat ≤ count := by
  have hsize : Int32.size = 4294967296 := rfl
  rw [Int32.toInt_ofNat', Int.bmod, hsize]
  split
  · omega
  · omega

/-- A number of arguments that is small enough is saved as it is. -/
theorem toInt_ofNat_of_few {count : Nat} (h : count < 2147483648) :
    0 ≤ (Int32.ofNat count).toInt ∧ (Int32.ofNat count).toInt.toNat = count := by
  have htoInt : (Int32.ofNat count).toInt = count := Int32.toInt_ofNat_of_lt h
  omega

namespace Frame.On

theorem base_add (h : f.On counted stack) : f.base + (4 + f.count) = f.fp :=
  Nat.sub_add_cancel h.room

theorem base_le (h : f.On counted stack) : f.base + 4 ≤ f.fp := by
  have hbase := h.base_add
  omega

/-- However many arguments a frame claims to have, they do not reach below its base. -/
theorem base_le_sub {n : Int32} (h : f.On counted stack)
    (hcount : stack[f.fp - 2]? = some (.int n)) : f.base ≤ f.fp - (4 + n.toInt.toNat) := by
  have hbase := h.base_add
  have hle := toNat_ofNat_le f.count
  cases hcount.symm.trans h.count
  omega

theorem size (h : f.On counted stack) : f.fp ≤ stack.size := by
  have hbase := h.base_le
  have hlt : f.fp - 1 < stack.size := by
    rcases h.cache with hcache | ⟨ref, hcache⟩
    · exact (Array.getElem?_eq_some_iff.1 hcache).1
    · exact (Array.getElem?_eq_some_iff.1 hcache).1
  omega

/-- A frame depends on nothing above its frame pointer. -/
theorem agree (h : f.On counted stack) (hsame : ∀ i < f.fp, stack'[i]? = stack[i]?) :
    f.On counted stack' := by
  have hbase := h.base_le
  obtain ⟨address, frame, count, cache, room, few⟩ := h
  refine ⟨?_, ?_, ?_, ?_, room, few⟩
  · rw [hsame _ (by omega)]
    exact address
  · rw [hsame _ (by omega)]
    exact frame
  · rw [hsame _ (by omega)]
    exact count
  · rw [hsame _ (by omega)]
    exact cache

/-- The slot for the arguments may get an array. -/
theorem withCache (h : f.On counted stack) (ref : ArrayRef) :
    f.On counted (stack.setIfInBounds (f.fp - 1) (.array ref)) := by
  have hbase := h.base_le
  have hsize := h.size
  have hother : ∀ i, f.fp - 1 ≠ i →
      (stack.setIfInBounds (f.fp - 1) (.array ref))[i]? = stack[i]? :=
    fun i hi => Array.getElem?_setIfInBounds_ne hi
  obtain ⟨address, frame, count, -, room, few⟩ := h
  refine ⟨?_, ?_, ?_, .inr ⟨ref, ?_⟩, room, few⟩
  · rw [hother _ (by omega)]
    exact address
  · rw [hother _ (by omega)]
    exact frame
  · rw [hother _ (by omega)]
    exact count
  · exact Array.getElem?_setIfInBounds_self_of_lt (by omega)

theorem intact (h : f.On counted stack) (hcounted : counted) : FrameIntact stack f.fp := by
  obtain ⟨hn, hnat⟩ := toInt_ofNat_of_few (h.few hcounted)
  have hroom := h.room
  rcases h.cache with hcache | ⟨ref, hcache⟩
  · exact ⟨_, _, _, _, h.address, h.frame, h.count, hcache, hn, by omega⟩
  · exact ⟨_, _, _, _, h.address, h.frame, h.count, hcache, hn, by omega⟩

end Frame.On

/-- The bookkeeping slots of a new frame. -/
theorem withFrame_slot (stack : Array Value) (returnTo : Option CodeAddress) (caller : Option Nat)
    (count locals : Nat) {i : Nat} (h : i < 4) :
    (withFrame stack returnTo caller count locals)[stack.size + i]? =
      #[.address returnTo, .frame caller, Value.ofNat count, .unset][i]? := by
  rw [withFrame, Array.getElem?_append_left (by simp; omega),
    Array.getElem?_append_right (by omega)]
  congr 1
  omega

/-- A new frame lies on the stack that it is made on. -/
theorem Frame.on_withFrame {count locals : Nat} (returnTo : Option CodeAddress)
    (caller : Option Nat) (hcount : count ≤ stack.size) (hfew : counted → count < 2147483648) :
    Frame.On counted ⟨stack.size + 4, count, returnTo, caller⟩
      (withFrame stack returnTo caller count locals) where
  address := withFrame_slot stack returnTo caller count locals (i := 0) (by decide)
  frame := withFrame_slot stack returnTo caller count locals (i := 1) (by decide)
  count := withFrame_slot stack returnTo caller count locals (i := 2) (by decide)
  cache := .inl (withFrame_slot stack returnTo caller count locals (i := 3) (by decide))
  room := by
    show 4 + count ≤ stack.size + 4
    omega
  few := hfew

theorem size_withFrame (returnTo : Option CodeAddress) (caller : Option Nat) (count locals : Nat) :
    (withFrame stack returnTo caller count locals).size = stack.size + 4 + locals := by
  simp only [withFrame, Array.size_append, Array.size_replicate, List.size_toArray,
    List.length_cons, List.length_nil]

/-- A new frame leaves what lies below it alone. -/
theorem withFrame_below (returnTo : Option CodeAddress) (caller : Option Nat) (count locals : Nat)
    {i : Nat} (h : i < stack.size) :
    (withFrame stack returnTo caller count locals)[i]? = stack[i]? := by
  rw [withFrame, Array.append_assoc, Array.getElem?_append_left h]

/-- So does cutting the stack. -/
theorem extract_below {i n : Nat} (h : i < n) : (stack.extract 0 n)[i]? = stack[i]? := by
  rw [Array.getElem?_extract, Nat.zero_add]
  split
  · rfl
  · rw [Array.getElem?_eq_none]
    omega

/-! ## Chains -/

namespace FrameChain

/-- The newest frame of a chain. -/
theorem newest (h : FrameChain counted root stack fp fps) :
    ∃ f : Frame, f.fp = fp ∧ f.On counted stack := by
  cases h with
  | root hroot => exact ⟨root, rfl, hroot⟩
  | inner hf _ _ _ _ => exact ⟨_, rfl, hf⟩

theorem fp_le (h : FrameChain counted root stack fp fps) : fp ≤ stack.size := by
  obtain ⟨f, rfl, hf⟩ := h.newest
  exact hf.size

theorem rootOn (h : FrameChain counted root stack fp fps) : root.On counted stack := by
  induction h with
  | root hroot => exact hroot
  | inner _ _ _ _ _ ih => exact ih

theorem root_le (h : FrameChain counted root stack fp fps) : root.fp ≤ fp := by
  induction h with
  | root _ => exact Nat.le_refl _
  | inner hf _ _ hbase _ ih =>
    have := hf.base_le
    omega

/-- A chain depends on nothing above the newest frame pointer. -/
theorem agree (h : FrameChain counted root stack fp fps)
    (hsame : ∀ i < fp, stack'[i]? = stack[i]?) : FrameChain counted root stack' fp fps := by
  induction h with
  | root hroot => exact .root (hroot.agree hsame)
  | inner hf hreturn hcaller hbase _ ih =>
    have := hf.base_le
    refine .inner (hf.agree hsame) hreturn hcaller hbase (ih fun i hi => hsame i ?_)
    omega

theorem withCache (h : FrameChain counted root stack fp fps) (ref : ArrayRef) :
    FrameChain counted root (stack.setIfInBounds (fp - 1) (.array ref)) fp fps := by
  cases h with
  | root hroot => exact .root (hroot.withCache ref)
  | inner hf hreturn hcaller hbase hrest =>
    have hle := hf.base_le
    refine .inner (hf.withCache ref) hreturn hcaller hbase (hrest.agree fun i hi => ?_)
    exact Array.getElem?_setIfInBounds_ne (by omega)

/-- The frame pointers of a chain are its newest one and smaller ones, four slots apart. -/
theorem decreasing (h : FrameChain counted root stack fp fps) :
    fps.Pairwise (· > ·) ∧ (∀ g ∈ fps, g ≤ fp) ∧ 4 * fps.length ≤ fp := by
  induction h with
  | root hroot =>
    have := hroot.base_le
    refine ⟨List.pairwise_singleton _ _, ?_, ?_⟩
    · intro g hg
      exact Nat.le_of_eq (List.mem_singleton.1 hg)
    · rw [List.length_singleton]
      omega
  | inner hf _ _ hbase _ ih =>
    have := hf.base_le
    obtain ⟨hpairwise, hle, hlength⟩ := ih
    refine ⟨List.pairwise_cons.2 ⟨?_, hpairwise⟩, ?_, ?_⟩
    · intro g hg
      have := hle g hg
      omega
    · intro g hg
      rcases List.mem_cons.1 hg with rfl | hg
      · exact Nat.le_refl _
      · have := hle g hg
        omega
    · rw [List.length_cons]
      omega

/-- If frames are counted, all of them can be read. -/
theorem intact (h : FrameChain counted root stack fp fps) (hcounted : counted) :
    ∀ g ∈ fps, FrameIntact stack g := by
  induction h with
  | root hroot =>
    intro g hg
    cases List.mem_singleton.1 hg
    exact hroot.intact hcounted
  | inner hf _ _ _ _ ih =>
    intro g hg
    rcases List.mem_cons.1 hg with rfl | hg
    · exact hf.intact hcounted
    · exact ih g hg

end FrameChain

/-! ## The discipline -/

/-- The frames are chained down to the root, and below the root's arguments the stack is as it
was. -/
structure Chained (counted : Prop) (root : Frame) (old : Array Value) (bound : Nat)
    (stack : Array Value) (limit fp : Nat) : Prop where
  limit_eq : limit = bound
  fits : stack.size ≤ limit
  chain : ∃ fps, FrameChain counted root stack fp fps
  below : ∀ i < root.base, stack[i]? = old[i]?

namespace Chained

variable {bound : Nat}

theorem fp_le (h : Chained counted root old bound stack limit fp) : fp ≤ stack.size := by
  obtain ⟨fps, hchain⟩ := h.chain
  exact hchain.fp_le

/-- A change above the newest frame pointer. -/
theorem agree (h : Chained counted root old bound stack limit fp) (hfits : stack'.size ≤ limit)
    (hsame : ∀ i < fp, stack'[i]? = stack[i]?) :
    Chained counted root old bound stack' limit fp := by
  obtain ⟨fps, hchain⟩ := h.chain
  have hbase := hchain.rootOn.base_le
  have hroot := hchain.root_le
  refine ⟨h.limit_eq, hfits, ⟨fps, hchain.agree hsame⟩, ?_⟩
  intro i hi
  rw [hsame i (by omega)]
  exact h.below i hi

theorem shrink {n : Nat} (h : Chained counted root old bound stack limit fp)
    (hn : fp + n ≤ stack.size) :
    Chained counted root old bound (stack.extract 0 (stack.size - n)) limit fp := by
  have hfits := h.fits
  refine h.agree ?_ fun i hi => ?_
  · rw [Array.size_extract]
    omega
  · exact extract_below (by omega)

theorem withCache (h : Chained counted root old bound stack limit fp) (ref : ArrayRef) :
    Chained counted root old bound (stack.setIfInBounds (fp - 1) (.array ref)) limit fp := by
  obtain ⟨fps, hchain⟩ := h.chain
  have hbase := hchain.rootOn.base_le
  have hroot := hchain.root_le
  refine ⟨h.limit_eq, ?_, ⟨fps, hchain.withCache ref⟩, ?_⟩
  · rw [Array.size_setIfInBounds]
    exact h.fits
  · intro i hi
    rw [Array.getElem?_setIfInBounds_ne (by omega)]
    exact h.below i hi

/-- A call adds a frame to the chain. -/
theorem call {count locals : Nat} (a : CodeAddress)
    (h : Chained counted root old bound stack limit fp)
    (hroom : fp + count ≤ stack.size) (hfew : counted → count < 2147483648)
    (hlimit : stack.size + (4 + locals) ≤ limit) :
    Chained counted root old bound (withFrame stack (some a) (some fp) count locals) limit
      (stack.size + 4) := by
  obtain ⟨fps, hchain⟩ := h.chain
  have hbase := hchain.rootOn.base_le
  have hroot := hchain.root_le
  have hnew : Frame.On counted ⟨stack.size + 4, count, some a, some fp⟩
      (withFrame stack (some a) (some fp) count locals) :=
    Frame.on_withFrame (some a) (some fp) (by omega) hfew
  refine ⟨h.limit_eq, ?_, ⟨_, .inner hnew rfl rfl ?_ (hchain.agree ?_)⟩, ?_⟩
  · rw [size_withFrame]
    omega
  · show fp ≤ stack.size + 4 - (4 + count)
    omega
  · intro i hi
    exact withFrame_below _ _ _ _ (by omega)
  · intro i hi
    rw [withFrame_below _ _ _ _ (by omega)]
    exact h.below i hi

/-- A return leads back to the caller's frame. -/
theorem leave {a : CodeAddress} {caller : Option Nat} {n : Int32}
    (h : Chained counted root old bound stack limit fp)
    (hleaves : fp = root.fp → root.returnTo = none)
    (haddress : stack[fp - 4]? = some (.address (some a)))
    (hframe : stack[fp - 3]? = some (.frame caller)) (hcount : stack[fp - 2]? = some (.int n)) :
    Chained counted root old bound (stack.extract 0 (fp - (4 + n.toInt.toNat))) limit
      (caller.getD 0) := by
  obtain ⟨fps, hchain⟩ := h.chain
  have hfits := h.fits
  cases hchain with
  | root hroot =>
    -- the root has an address to return to, so it may not be left
    have hnone := hroot.address
    rw [haddress, hleaves rfl] at hnone
    cases hnone
  | @inner f b parent fps hf hreturn hcaller hbase hrest =>
    have hparent := hf.frame
    rw [hframe, hcaller] at hparent
    cases hparent
    have hfrom := hf.base_le_sub hcount
    have hroot := hrest.root_le
    have hrootBase := hrest.rootOn.base_le
    refine ⟨h.limit_eq, ?_, ⟨fps, hrest.agree ?_⟩, ?_⟩
    · rw [Array.size_extract]
      omega
    · intro i hi
      have hi : i < parent := hi
      exact extract_below (by omega)
    · intro i hi
      rw [extract_below (by omega)]
      exact h.below i hi

end Chained

/-- The discipline of frames over a root.  The root is left only to end the macro. -/
def frameDiscipline (counted : Prop) (root : Frame) (old : Array Value) (bound : Nat) :
    Discipline where
  checked := False
  framed := True
  counted := counted
  program _ := True
  control _ _ _ := True
  frames := Chained counted root old bound
  leaves fp := fp = root.fp → root.returnTo = none
  enter _ := trivial
  opcode _ _ := trivial
  operand _ := trivial
  landing _ _ _ _ := trivial
  marked _ _ := trivial
  unmarked _ _ := trivial
  weaken _ := trivial
  reads h := h.elim
  legible h := h.elim
  push v h hlt := by
    have hsize := h.fp_le
    refine h.agree ?_ fun i hi => ?_
    · rw [Array.size_push]
      exact hlt
    · rw [Array.getElem?_push, if_neg (by omega)]
  shrink h _ hn := h.shrink (hn trivial)
  set v h hle := by
    refine h.agree ?_ fun j hj => ?_
    · rw [Array.size_setIfInBounds]
      exact h.fits
    · exact Array.getElem?_setIfInBounds_ne (by omega)
  cache ref h := h.withCache ref
  call a h _ hroom hfew hlimit := h.call a (hroom trivial) hfew hlimit
  leave h hleaves haddress hframe hcount _ _ := h.leave hleaves haddress hframe hcount
  covers _ h := h.fp_le
  intact hcounted h := by
    obtain ⟨fps, hchain⟩ := h.chain
    obtain ⟨f, rfl, hf⟩ := hchain.newest
    exact hf.intact hcounted

/-! ## The limit alone -/

/-- A stack and its limit: the limit is the one that the macro was started with, and the stack is
within it. -/
structure Bounded (bound : Nat) (stack : Array Value) (limit : Nat) : Prop where
  limit_eq : limit = bound
  fits : stack.size ≤ limit

namespace Bounded

variable {bound : Nat}

theorem of_size (h : Bounded bound stack limit) (hsize : stack'.size = stack.size) :
    Bounded bound stack' limit :=
  ⟨h.limit_eq, hsize ▸ h.fits⟩

theorem push (h : Bounded bound stack limit) (v : Value) (hroom : stack.size < limit) :
    Bounded bound (stack.push v) limit :=
  ⟨h.limit_eq, Array.size_push v ▸ hroom⟩

theorem extract (h : Bounded bound stack limit) (n : Nat) :
    Bounded bound (stack.extract 0 n) limit := by
  have hfits := h.fits
  refine ⟨h.limit_eq, ?_⟩
  rw [Array.size_extract]
  omega

theorem withFrame (h : Bounded bound stack limit) (returnTo : Option CodeAddress)
    (caller : Option Nat) (count : Nat) {locals : Nat} (hroom : stack.size + (4 + locals) ≤ limit) :
    Bounded bound (MacroMachine.withFrame stack returnTo caller count locals) limit := by
  refine ⟨h.limit_eq, ?_⟩
  rw [size_withFrame, Nat.add_assoc]
  exact hroom

end Bounded

/-- The discipline of the limit, which asks nothing of the frames. -/
def limitDiscipline (bound : Nat) : Discipline where
  checked := False
  framed := False
  counted := False
  program _ := True
  control _ _ _ := True
  frames stack limit _ := Bounded bound stack limit
  leaves _ := True
  enter _ := trivial
  opcode _ _ := trivial
  operand _ := trivial
  landing _ _ _ _ := trivial
  marked _ _ := trivial
  unmarked _ _ := trivial
  weaken _ := trivial
  reads h := h.elim
  legible h := h.elim
  push v h hroom := h.push v hroom
  shrink h _ _ := h.extract _
  set _ h _ := h.of_size Array.size_setIfInBounds
  cache _ h := h.of_size Array.size_setIfInBounds
  call _ h _ _ _ hroom := h.withFrame _ _ _ hroom
  leave h _ _ _ _ _ _ := h.extract _
  covers h := h.elim
  intact h := h.elim

theorem limitDiscipline_free (bound : Nat) : (limitDiscipline bound).Free :=
  ⟨fun _ => trivial, fun _ _ _ => trivial⟩

/-! ## Runs -/

section Runs

variable {bound : Nat} {host : Host}

theorem frameDiscipline_free : (frameDiscipline counted root old bound).Free :=
  ⟨fun _ => trivial, fun _ _ _ => trivial⟩

/-- If the next instruction calls a function, a signed 32-bit number can count its arguments. -/
def State.FewArguments (s : State) : Prop :=
  ∀ id p count, s.CallsFunction id p count → count < 2147483648

theorem State.FewArguments.counts {s : State} (h : s.FewArguments)
    (hcall : s.context.nextIs .call) : s.world.Counts (s.context.pc.advance 1) := by
  intro id symbol p hslot hget hkind hvalue
  have hopcode : s.context.pc.slot? = some (.op .call) := by
    simpa only [Context.nextIs, beq_iff_eq] using hcall
  show ((s.context.pc.advance 2).number).toNat < 2147483648
  unfold CodeAddress.number
  split
  · next n hn =>
    by_cases hneg : n.toInt < 0
    · omega
    · refine h id p n.toInt.toNat ⟨hopcode, hslot, ⟨n, hn, ?_⟩, symbol, hget, hkind, hvalue⟩
      omega
  · decide

/-- An instruction keeps the frames chained if it finds its operands in the current frame and does
not leave the root. -/
theorem Chained.step {s t : State} {outcome : Outcome}
    (h : Chained counted root old bound s.context.stack s.context.limit s.context.fp)
    (horderly : s.context.Orderly) (hfew : counted → s.FewArguments)
    (hleaves : s.context.Returns → s.context.fp = root.fp → root.returnTo = none)
    (hstep : host.Steps s outcome t) (hgoes : outcome ≠ .done) :
    Chained counted root old bound t.context.stack t.context.limit t.context.fp := by
  obtain ⟨fuel, hstep⟩ := hstep
  have hmeets := Discipline.step_meets (frameDiscipline_free.keeps host)
    (frameDiscipline_free.answers (host.resume fuel)) s
    ⟨frameDiscipline_free.ready h, fun _ => horderly, fun hcounted => (hfew hcounted).counts,
      hleaves⟩
  rw [hstep] at hmeets
  exact (hmeets.ready hgoes).sound.frames

/-- A run whose instructions find their operands in the current frame and do not leave the root
keeps the frames chained. -/
theorem Chained.runs {allowed : Context → Prop} {s t : State}
    (h : Chained False root old bound s.context.stack s.context.limit s.context.fp)
    (hallowed : ∀ c, allowed c → c.Orderly ∧ (c.Returns → c.fp = root.fp → root.returnTo = none))
    (hrun : host.Runs allowed Host.AnyWorld s t) :
    Chained False root old bound t.context.stack t.context.limit t.context.fp := by
  induction hrun with
  | start => exact h
  | step _ hnow hstep hgoes ih =>
    obtain ⟨horderly, hleaves⟩ := hallowed _ hnow
    exact ih.step horderly False.elim hleaves hstep hgoes
  | pause _ hpause ih =>
    rw [hpause]
    exact ih

/-- So does such a run in which the arguments of all functions can be counted. -/
theorem Chained.trail {past : List (State × State)} {s t : State}
    (h : Chained True root old bound s.context.stack s.context.limit s.context.fp)
    (hroot : root.returnTo = none)
    (hrun : host.Trail Context.Orderly Host.AnyWorld s past t)
    (hcalls : ∀ k ∈ past, k.1.FewArguments) :
    Chained True root old bound t.context.stack t.context.limit t.context.fp := by
  induction hrun with
  | start => exact h
  | step _ horderly hstep hgoes ih =>
    exact (ih fun k hk => hcalls k (List.mem_cons_of_mem _ hk)).step horderly
      (fun _ => hcalls _ List.mem_cons_self) (fun _ _ => hroot) hstep hgoes
  | pause _ hpause ih =>
    rw [hpause]
    exact ih hcalls

/-- A context starts with the outermost frame alone. -/
theorem chained_start {p : ProgramRef} {arguments : List Value} {target : Option DocumentHandle}
    {c : Context} (h : Context.start p arguments limit target = .ok c)
    (hfew : counted → arguments.length < 2147483648) :
    Chained counted ⟨arguments.length + 4, arguments.length, none, none⟩ #[] limit c.stack c.limit
      c.fp := by
  obtain ⟨hlimit, rfl⟩ := Context.start_eq_ok h
  have hnew : Frame.On counted ⟨arguments.length + 4, arguments.length, none, none⟩
      (withFrame arguments.toArray none none arguments.length p.program.locals.length) :=
    Frame.on_withFrame none none (Nat.le_refl _) hfew
  refine ⟨rfl, ?_, ⟨_, .root hnew⟩, fun i hi => ?_⟩
  · show _ ≤ limit
    rw [size_withFrame, List.size_toArray]
    omega
  · have hbase : Frame.base ⟨arguments.length + 4, arguments.length, none, none⟩ = 0 := by
      simp only [Frame.base]
      omega
    rw [hbase] at hi
    exact absurd hi (Nat.not_lt_zero i)

/-- The next instruction reads the bookkeeping of the current frame without a fault. -/
theorem Chained.no_frame_fault {nested : Runner} {s t : State} {e : Fault}
    (h : Chained True root old bound s.context.stack s.context.limit s.context.fp)
    (horderly : s.context.Orderly) (hleaves : s.context.Returns → s.context.fp = root.fp →
      root.returnTo = none)
    (hstep : Execution.step host nested s = .error (.fault e) t) : ¬ e.IsFrame := by
  by_cases hfew : s.FewArguments
  · have hmeets := Discipline.step_meets (frameDiscipline_free.keeps host)
      (frameDiscipline_free.answers nested) s
      ⟨frameDiscipline_free.ready h, fun _ => horderly, fun _ => hfew.counts, hleaves⟩
    rw [hstep] at hmeets
    exact (hmeets.2 e rfl).2 trivial
  · -- a call with too many arguments makes a frame that cannot be read, but it does not read it
    obtain ⟨id, p, count, hcalls⟩ : ∃ id p count, s.CallsFunction id p count :=
      Classical.byContradiction fun hnone =>
        hfew fun id p count hcalls => absurd ⟨id, p, count, hcalls⟩ hnone
    rw [hcalls.step_eq, Context.enter] at hstep
    rcases Context.pushFrame_cases (some s.backAddress) (some s.context.fp) count p
      { s.context with pc := s.backAddress } with ⟨-, -, heq⟩ | ⟨e', he', heq⟩
    · rw [heq] at hstep
      cases hstep
    · rw [heq] at hstep
      cases hstep
      exact he'.2

/-- The frames of a macro stay chained.  Start a macro, and let it run as long as every instruction
finds its operands in the current frame and no function is called with more arguments than a signed
32-bit number can count, nor the macro started so.  Then the saved frame pointers lead in decreasing
steps to the outermost frame, which lies at the bottom of the stack, and the bookkeeping of every
frame can be read; there are at most a quarter as many frames as the stack has room for, and no
instruction finds the bookkeeping of its frame spoiled. -/
theorem Host.frames_stay_chained {w : World} {p : ProgramRef} {arguments : List Value}
    {target : Option DocumentHandle} {c : Context} {past : List (State × State)} {s : State}
    (hstart : Context.start p arguments host.limits.stackSize target = .ok c)
    (hfew : arguments.length < 2147483648)
    (hrun : host.Trail Context.Orderly Host.AnyWorld ⟨w, c⟩ past s)
    (hcalls : ∀ k ∈ past, k.1.FewArguments) :
    (∃ (root : Frame) (fps : List Nat), FrameChain True root s.context.stack s.context.fp fps ∧
      root.base = 0 ∧ root.returnTo = none ∧ root.caller = none ∧ fps.Pairwise (· > ·) ∧
      (∀ g ∈ fps, FrameIntact s.context.stack g) ∧ fps.length ≤ host.limits.stackSize / 4) ∧
    s.context.fp ≤ s.context.stack.size ∧ s.context.stack.size ≤ s.context.limit ∧
    s.context.limit = host.limits.stackSize ∧
    (s.context.Orderly → ∀ nested e t, Execution.step host nested s = .error (.fault e) t →
      ¬ e.IsFrame) := by
  have hchained := (chained_start hstart fun _ => hfew).trail rfl hrun hcalls
  obtain ⟨fps, hchain⟩ := hchained.chain
  obtain ⟨hdecreasing, -, hlength⟩ := hchain.decreasing
  have hfits := hchained.fits
  have hlimit := hchained.limit_eq
  have hsize := hchain.fp_le
  have hbase : Frame.base ⟨arguments.length + 4, arguments.length, none, none⟩ = 0 := by
    simp only [Frame.base]
    omega
  refine ⟨⟨_, fps, hchain, hbase, rfl, rfl, hdecreasing, hchain.intact trivial, ?_⟩, hsize, hfits,
    hlimit, ?_⟩
  · omega
  · intro horderly nested e t hstep
    exact hchained.no_frame_fault horderly (fun _ _ => rfl) hstep

/-- The chain within a call. -/
theorem Host.frames_stay_chained_in_call :
    Sample.host.Trail Context.Orderly Host.AnyWorld Sample.started
        [(Sample.calling, Sample.called), (Sample.started, Sample.calling)] Sample.called ∧
      ∃ (root : Frame) (fps : List Nat),
        FrameChain True root Sample.called.context.stack 10 fps ∧ root.base = 0 ∧
        (∀ g ∈ fps, FrameIntact Sample.called.context.stack g) ∧ fps.length ≤ 4 := by
  have hrun : Sample.host.Trail Context.Orderly Host.AnyWorld Sample.started
      [(Sample.calling, Sample.called), (Sample.started, Sample.calling)] Sample.called :=
    .step (.step .start (by decide) Sample.started_steps (by decide)) (by decide)
      Sample.calling_steps (by decide)
  have hcalls : ∀ k ∈ [(Sample.calling, Sample.called), (Sample.started, Sample.calling)],
      k.1.FewArguments := by
    intro k hk id p count hcalls
    obtain ⟨n, hslot, hn⟩ := hcalls.count
    simp only [List.mem_cons, List.not_mem_nil, or_false] at hk
    rcases hk with rfl | rfl
    · cases hslot
      have hone : (1 : Int64).toInt = 1 := rfl
      omega
    · cases hslot
  have hstart : Context.start Sample.callCount [.text "a"] Sample.host.limits.stackSize none =
      .ok Sample.started.context := rfl
  obtain ⟨⟨root, fps, hchain, hbase, -, -, -, hintact, hlength⟩, -⟩ :=
    Host.frames_stay_chained hstart (by decide) hrun hcalls
  exact ⟨hrun, root, fps, hchain, hbase, hintact, hlength⟩

end Runs

/-! ## Too many arguments -/

/-- The number of arguments of a frame over 2147483648 of them cannot be read. -/
theorem Context.argumentCount_of_many {c : Context} {returnTo : Option CodeAddress}
    {caller : Option Nat} {locals : Nat}
    (hstack : c.stack = withFrame stack returnTo caller 2147483648 locals)
    (hfp : c.fp = stack.size + 4) :
    c.argumentCount = .error (.malformed (.corruptSlot .argumentCount (.int (-2147483648)))) := by
  have hslot : c.stack[c.fp - 2]? = some (.int (-2147483648)) := by
    rw [hstack, hfp]
    exact withFrame_slot stack returnTo caller 2147483648 locals (i := 2) (by decide)
  simp only [Context.argumentCount, Context.below_of_slot (show 2 ≤ c.fp by omega) hslot]
  rfl

namespace Sample

/-- More arguments than a signed 32-bit number can count. -/
noncomputable def crowd : List Value :=
  List.replicate 2147483648 .unset

theorem length_crowd : crowd.length = 2147483648 :=
  List.length_replicate

/-- A host with room for a frame over them. -/
def crowdedHost : Host :=
  ⟨⟨2147483653, none⟩, fun _ _ => .idle⟩

/-- The function that counts its arguments, started as a macro over them. -/
def crowded (arguments : List Value) : State :=
  ⟨world #[], { stack := withFrame arguments.toArray none none arguments.length 0
                limit := 2147483653, fp := arguments.length + 4, pc := ⟨countArguments, 0⟩
                runTarget := none, focusTarget := none }⟩

variable {arguments : List Value}

theorem crowded_starts (hmany : arguments.length = 2147483648) :
    Context.start countArguments arguments crowdedHost.limits.stackSize none =
      .ok (crowded arguments).context := by
  have hfits : arguments.length + (4 + countArguments.program.locals.length) ≤ 2147483653 := by
    show arguments.length + (4 + 0) ≤ 2147483653
    omega
  exact Context.start_of_room hfits

theorem crowded_room (hmany : arguments.length = 2147483648) :
    (crowded arguments).context.stack.size < (crowded arguments).context.limit := by
  show (withFrame arguments.toArray none none arguments.length 0).size < 2147483653
  rw [size_withFrame, List.size_toArray]
  omega

theorem argumentCount_crowded (hmany : arguments.length = 2147483648) :
    (crowded arguments).context.argumentCount =
      .error (.malformed (.corruptSlot .argumentCount (.int (-2147483648)))) := by
  have hstack : (crowded arguments).context.stack =
      withFrame arguments.toArray none none 2147483648 0 := by
    rw [← hmany]
    rfl
  exact Context.argumentCount_of_many hstack rfl

end Sample

/-- Where the number of arguments cannot be read, asking for it fails. -/
theorem Execution.step_of_uncounted {host : Host} {nested : Runner} {s : State} {e : Fault}
    (hop : s.context.pc.slot? = some (.op .pushArgumentCount))
    (h : s.context.argumentCount = .error e) :
    step host nested s = .error (.fault e)
      ⟨recorded .pushArgumentCount s, { s.context with pc := s.context.pc.advance 1 }⟩ := by
  have hcount : Context.argumentCount { s.context with pc := s.context.pc.advance 1 } =
      .error e := h
  rw [step_of_opcode hop]
  exact bind_of_error (view_of_error hcount)

theorem Sample.crowded_spoiled {arguments : List Value} (hmany : arguments.length = 2147483648) :
    (crowded arguments).context.Orderly ∧
    (crowded arguments).context.stack[(crowded arguments).context.fp - 2]? =
      some (.int (-2147483648)) ∧
    ∃ t, Execution.step crowdedHost (fun _ _ => none) (crowded arguments) =
      .error (.fault (.malformed (.corruptSlot .argumentCount (.int (-2147483648))))) t := by
  refine ⟨?_, ?_, _, Execution.step_of_uncounted rfl (argumentCount_crowded hmany)⟩
  · show arguments.length + 4 + 0 ≤ (withFrame arguments.toArray _ _ _ _).size
    exact Nat.le_of_eq (size_withFrame _ _ _ _).symm
  · have hslot := withFrame_slot arguments.toArray none none arguments.length 0 (i := 2)
      (by decide)
    rw [List.size_toArray] at hslot
    refine Eq.trans hslot ?_
    rw [hmany]
    rfl

/-- A macro that is started with 2147483648 arguments has a frame whose count is negative, and its
first instruction, which needs no operands, finds that count spoiled. -/
theorem Host.frames_spoiled_by_crowd :
    Context.start Sample.countArguments Sample.crowd Sample.crowdedHost.limits.stackSize none =
      .ok (Sample.crowded Sample.crowd).context ∧
    (Sample.crowded Sample.crowd).context.Orderly ∧
    (Sample.crowded Sample.crowd).context.stack[(Sample.crowded Sample.crowd).context.fp - 2]? =
      some (.int (-2147483648)) ∧
    ∃ t, Execution.step Sample.crowdedHost (fun _ _ => none) (Sample.crowded Sample.crowd) =
      .error (.fault (.malformed (.corruptSlot .argumentCount (.int (-2147483648))))) t :=
  ⟨Sample.crowded_starts Sample.length_crowd, Sample.crowded_spoiled Sample.length_crowd⟩

end MacroMachine
