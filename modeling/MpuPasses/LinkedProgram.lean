import MpuPasses.Behaviour
import MpuPasses.Isolation
import MpuPasses.LinkScript
import MpuPasses.Toolchain

/-!
# The linked program

What the build is for. `toolchain` makes a module and, on the way, the records from which
`function_size.py` writes its linker script; the linker walks over the script and places the code. In
every run of the module, between the calls of the functions of `mpu_configure.c`, regions 1 and 2 of the
MPU admit the running function where the linker has placed it, and no function that is neither its
caller nor its callee (`toolchain_isolates`). The assumptions are on the source and on two listings: the
script measures the code before its operands are set, and what is linked is the code after. `MPU_Config`
leaves privileged code the default map as well, which is not part of these results.
-/

namespace MpuPasses

open Chars

/-! ## The source -/

/-- What a source must be like: direct calls, in user code only of user functions and never of `main`;
what can return is the last block of a function; there the restoring call gets what was read. -/
structure UserSource (L : LinkedModule) (stale : Stale) : Prop where
  direct : L.functions.Direct
  noRegisters : NoRegisters L.functions
  callee : ∀ F ∈ L.functions, IsUser F.name → ∀ b ∈ F.blocks, ∀ i ∈ b.insts, ∀ h ∈ i.callee?,
    IsUser h ∧ h ≠ mainName
  returns : ∀ F ∈ L.functions, IsUser F.name → F.name ≠ mainName → ∀ b ∈ F.blocks, F.Reaches b →
    b.term.IsRet → F.IsBack b
  values : ∀ F ∈ L.functions, IsUser F.name → F.name ≠ mainName → ∀ b ∈ F.blocks, F.IsBack b →
    restoreArgs stale F b = callerVals (insertedFunction F)

section Source

variable {L : LinkedModule} {stale : Stale} {T : LinkTable} {lines : List Str}

/-- With the records of the build, every callee has one. -/
theorem UserSource.userProgram (h : UserSource L stale)
    (hout : linkRecords (functionTxt L.functions) lines = some T.out) : UserProgram L stale T where
  direct := h.direct
  callee F hF huser b hb i hi g hg := by
    obtain ⟨hg_user, hg_main⟩ := h.callee F hF huser b hb i hi g hg
    refine ⟨hg_user, hg_main, (mem_table_iff hout).mpr ⟨?_, mt mem_insertSkips_iff.mpr hg_user.1⟩⟩
    exact callee_mem_names (h.direct F hF b hb i hi) hg
  returns := h.returns
  values := h.values

end Source

/-! ## The code of the functions -/

/-- The bytes of the code of a function. -/
def Listing.codeBytes (Ls : Listing) (name : Str) : ℤ :=
  (Ls.symbols.find? fun g => decide (g.name = name)).elim 0 Symbol.bytes

/-- A record with the bytes of the code for the size that was measured. -/
def Listing.withCode (Ls : Listing) (f : Func) : Func :=
  { f with functionSize := Ls.codeBytes f.name }

/-- The linker places the code of `name` at `code`: all bytes that the listing of the linked code shows.
By these it moves on; what it aligns to, the region sizes in the script, comes from the records. -/
def LinkedAt (final : Listing) (out : List Func) (name : Str) (code : Set ℕ) : Prop :=
  ∃ g ∈ final.symbols, g.name = name ∧ ∃ loc,
    (name, loc) ∈ linkAddresses (out.map final.withCode) ∧ code = Set.Ico loc (loc + g.bytes.toNat)

/-- The script measures all of a function of at most 16384 bytes, and the linked code has no more. -/
structure Symbol.Fits (f : Symbol) (lastLine : Option Str) (final : Listing) : Prop where
  after : f.after ≠ []
  last : f.last.size = 2
  scan : ∀ x ∈ f.items.dropLast, some x.line ≠ lastLine
  small : f.bytes ≤ 16384
  linked : ∃ g ∈ final.symbols, g.name = f.name ∧ g.bytes ≤ f.bytes

/-- Every function of `function.txt` fits. -/
def CodeFits (M : IrModule) (measured final : Listing) : Prop :=
  ∀ f ∈ measured.symbols, f.name ∈ findFunction M → f.Fits measured.lines.getLast? final

theorem Listing.codeBytes_of_mem (Ls : Listing) {g : Symbol} (hg : g ∈ Ls.symbols) :
    Ls.codeBytes g.name = g.bytes := by
  obtain ⟨pre, post, hsplit, hnames, -⟩ := exists_append_of_mem Ls.distinct Ls.separated hg
  have hfind : Ls.symbols.find? (fun f => decide (f.name = g.name)) = some g := by
    refine List.find?_eq_some_iff_append.mpr ⟨decide_eq_true rfl, pre, post, hsplit, fun f hf => ?_⟩
    rw [Bool.not_eq_true', decide_eq_false_iff_not]
    exact hnames f hf
  unfold codeBytes
  rw [hfind, Option.elim_some]

/-- The linker places code that is not longer than what was measured at the start of its region. -/
theorem linkAddresses_withCode {fs out : List Func} {final : Listing} (hout : layout fs = some out)
    (hnd : (out.map Func.name).Nodup)
    (hfit : ∀ f ∈ out, 0 < final.codeBytes f.name ∧ final.codeBytes f.name ≤ f.functionSize ∧
      f.functionSize ≤ 16384) :
    linkAddresses (out.map final.withCode) = out.map fun f => (f.name, f.regionStart) := by
  have hname : (out.map final.withCode).map Func.name = out.map Func.name := by
    rw [List.map_map]
    rfl
  have hsnd : ((out.map final.withCode).map fun f => (f.functionSize.toNat, f.regionSize)).map
      Prod.snd = out.map Func.regionSize := by
    rw [List.map_map, List.map_map]
    rfl
  rw [linkAddresses_eq (hname ▸ hnd), hname]
  rw [layout_eq (ne_nil_of_layout hout)] at hout
  obtain rfl := Option.some.inj hout
  have hstarts := assign_map_regionStart codeStart (sortFuncs fs)
  rw [← assign_map_regionSize codeStart (sortFuncs fs), ← hsnd] at hstarts
  have hdvd := pairwise_dvd_regionSize (pairwise_sortFuncs fs)
  rw [← assign_map_regionSize codeStart (sortFuncs fs), ← hsnd] at hdvd
  rw [Packing.alignedStarts_eq_starts hdvd, ← hstarts, List.zip_map']
  · intro p hp
    rw [List.map_map] at hp
    obtain ⟨f, hf, rfl⟩ := List.mem_map.mp hp
    obtain ⟨hpos, hle, -⟩ := hfit f hf
    have hregion := le_regionSize f.functionSize
    rw [← regionSize_of_mem_assign hf] at hregion
    show 0 < (final.codeBytes f.name).toNat ∧ (final.codeBytes f.name).toNat ≤ f.regionSize
    omega
  · intro p hp
    rw [List.map_map] at hp
    obtain ⟨f, hf, rfl⟩ := List.mem_map.mp hp
    show f.regionSize ∣ codeStart
    rw [regionSize_of_mem_assign hf, regionSize_dvd_codeStart_iff]
    exact (hfit f hf).2.2

section Code

variable {L : LinkedModule} {T : LinkTable} {measured final : Listing}
  (hout : linkRecords (functionTxt L.functions) measured.lines = some T.out)
  (hfits : CodeFits L.functions measured final)

include hout

/-- A record has the size that the script measured. -/
theorem functionSizeOf_of_mem_out {f : Func} (hf : f ∈ T.out) :
    functionSizeOf measured.lines f.name = some f.functionSize := by
  obtain ⟨out, hout', -, hall⟩ := givesRegions_of_linkRecords L.plain hout
  obtain rfl := Option.some.inj (hout.symm.trans hout')
  exact (hall f hf).1

theorem names_perm_findFunction : (T.out.map Func.name).Perm (findFunction L.functions) := by
  obtain ⟨out, hout', hperm, -⟩ := givesRegions_of_linkRecords L.plain hout
  obtain rfl := Option.some.inj (hout.symm.trans hout')
  exact hperm

include hfits

/-- A record has the bytes of a function of the measured listing that fits. -/
theorem exists_fits_of_mem_out {f : Func} (hf : f ∈ T.out) :
    ∃ g ∈ measured.symbols, g.name = f.name ∧ g.bytes = f.functionSize ∧
      g.Fits measured.lines.getLast? final := by
  have hsize := functionSizeOf_of_mem_out hout hf
  have hsymbol : ∃ g ∈ measured.symbols, g.name = f.name := by
    by_contra! hnone
    rw [functionSizeOf_of_not_found (measured.headerText_not_infix_lines hnone)] at hsize
    cases hsize
  obtain ⟨g, hg, hname⟩ := hsymbol
  have hlisted : g.name ∈ findFunction L.functions :=
    hname ▸ (names_perm_findFunction hout).mem_iff.mp (List.mem_map_of_mem hf)
  have hfit := hfits g hg hlisted
  obtain ⟨hfound⟩ := measured.nonempty_found hg
  have hbytes := hfound.functionSizeOf_eq_bytes hfit.after hfit.last hfit.scan
  rw [hname, hsize, Option.some.injEq] at hbytes
  exact ⟨g, hg, hname, hbytes.symm, hfit⟩

theorem CodeFits.small : T.Small := by
  intro f hf
  obtain ⟨g, hg, hkey⟩ := List.mem_map.mp
    ((perm_key_of_layout T.laid).symm.mem_iff.mp (List.mem_map_of_mem (f := Func.key) hf))
  obtain ⟨-, hsize⟩ := Prod.mk.inj hkey
  obtain ⟨s, -, -, hbytes, hfit⟩ := exists_fits_of_mem_out hout hfits hg
  rw [← hsize, ← hbytes]
  exact hfit.small

/-- The code of a record in the linked program. -/
theorem exists_code_of_mem_out {f : Func} (hf : f ∈ T.out) : ∃ g ∈ final.symbols, g.name = f.name ∧
    0 < g.bytes ∧ g.bytes ≤ f.functionSize ∧ f.functionSize ≤ 16384 := by
  obtain ⟨s, -, hname, hbytes, hfit⟩ := exists_fits_of_mem_out hout hfits hf
  obtain ⟨g, hg, hgname, hle⟩ := hfit.linked
  exact ⟨g, hg, hgname.trans hname, g.bytes_pos, hbytes ▸ hle, hbytes ▸ hfit.small⟩

/-- The code of a record is linked at the start of its region. -/
theorem linkedAt_iff {name : Str} {code : Set ℕ} : LinkedAt final T.out name code ↔
    ∃ f ∈ T.out, f.name = name ∧ ∃ g ∈ final.symbols, g.name = name ∧
      code = Set.Ico f.regionStart (f.regionStart + g.bytes.toNat) := by
  have hnd : (T.out.map Func.name).Nodup :=
    (names_perm_findFunction hout).nodup_iff.mpr (L.names_nodup.filter _)
  have hlink := linkAddresses_withCode T.laid hnd fun f hf => by
    obtain ⟨g, hg, hname, hcode⟩ := exists_code_of_mem_out hout hfits hf
    rw [← hname, final.codeBytes_of_mem hg]
    exact hcode
  unfold LinkedAt
  rw [hlink]
  constructor
  · rintro ⟨g, hg, hname, loc, hmem, rfl⟩
    obtain ⟨f, hf, heq⟩ := List.mem_map.mp hmem
    obtain ⟨rfl, rfl⟩ := Prod.mk.inj heq
    exact ⟨f, hf, rfl, g, hg, hname, rfl⟩
  · rintro ⟨f, hf, rfl, g, hg, hname, rfl⟩
    exact ⟨g, hg, hname, f.regionStart,
      List.mem_map_of_mem (f := fun f : Func => (f.name, f.regionStart)) hf, rfl⟩

end Code

/-! ## Runs -/

/-- `Reset_Handler` has called `main`; regions 1 and 2 are as at reset. -/
structure AtMain (M : IrModule) (s : State) : Prop where
  main : ∃ F ∈ M, F.name = mainName ∧ ∃ b regs, F.blocks.head? = some b ∧
    s.frames = [Frame.enter F b regs]
  reset : ∀ r ∈ [1#8, 2#8], s.configured r = false ∧ (s.device.bank r).rasr = 0#32

/-- What regions 1 and 2 admit while `f` is the innermost call: all code of the running function, and
none of a function that is not near. -/
structure Confined (final : Listing) (out : List Func) (f : Frame) (fs : List Frame) (s : State) :
    Prop where
  enabled : s.device.Enabled
  running : ∃ code, LinkedAt final out f.func.name code ∧ code.Nonempty ∧
    ∀ n ∈ code, ∃ a : BitVec 32, a.toNat = n ∧ ∃ r ∈ [1#8, 2#8], (s.device.bank r).Admits a
  apart : ∀ name code, LinkedAt final out name code → ¬ Near f fs name →
    ∀ a : BitVec 32, a.toNat ∈ code → ∀ r ∈ [1#8, 2#8], ¬ (s.device.bank r).Admits a

section Run

variable {L : LinkedModule} {stale : Stale} {T : LinkTable} {M : IrModule} {measured final : Listing}

theorem AtMain.booted {s : State} (h : AtMain M s) : Booted T M s := by
  obtain ⟨F, hF, hname, b, regs, hb, hframes⟩ := h.main
  refine ⟨F, hF, hname, b, regs, hb, hframes, fun hset => ?_⟩
  rw [(h.reset 2#8 (by decide)).1] at hset
  cases hset

theorem AtMain.wired {s : State} (h : AtMain M s) : Wired s where
  set r hr hset := by
    rw [(h.reset r hr).1] at hset
    cases hset
  reset r hr _ := (h.reset r hr).2

/-- Code that is not longer than a record says is part of its region, below the end of the address
space. -/
theorem LinkTable.code_subset_region {f : Func} (hf : f ∈ T.out) {bytes : ℤ}
    (hle : bytes ≤ f.functionSize) :
    Set.Ico f.regionStart (f.regionStart + bytes.toNat) ⊆ f.region ∧ ∀ n ∈ f.region, n < 2 ^ 32 := by
  have hlaid := T.laidOut hf
  have hregion := le_regionSize f.functionSize
  have hstart := hlaid.start_lt
  have hsize := hlaid.size_lt
  rw [← hlaid.size_eq] at hregion
  constructor
  · exact Set.Ico_subset_Ico_right (by omega)
  · intro n hn
    have hlt : n < f.regionStart + f.regionSize := hn.2
    omega

/-- Isolated regions confine the code that the linker has placed in them. -/
theorem Isolated.confined
    (hout : linkRecords (functionTxt L.functions) measured.lines = some T.out)
    (hfits : CodeFits L.functions measured final) {d₀ : Device} {f : Frame} {fs : List Frame}
    {s : State} (h : Isolated T d₀ f fs s) : Confined final T.out f fs s where
  enabled := h.enabled
  running := by
    obtain ⟨r, hr, hname, hadmits⟩ := h.running
    obtain ⟨g, hg, hgname, hpos, hle, -⟩ := exists_code_of_mem_out hout hfits hr
    obtain ⟨hsub, hbelow⟩ := LinkTable.code_subset_region hr hle
    refine ⟨_, (linkedAt_iff hout hfits).mpr ⟨r, hr, hname, g, hg, hgname.trans hname, rfl⟩, ?_,
      fun n hn => ?_⟩
    · exact Set.nonempty_Ico.mpr (by omega)
    · have hn32 : (BitVec.ofNat 32 n).toNat = n := Nat.mod_eq_of_lt (hbelow n (hsub hn))
      exact ⟨_, hn32, hadmits _ (hn32.symm ▸ hsub hn)⟩
  apart name code hcode hfar a ha := by
    obtain ⟨r, hr, rfl, g, hg, hgname, rfl⟩ := (linkedAt_iff hout hfits).mp hcode
    have hle : g.bytes ≤ r.functionSize := by
      obtain ⟨g', hg', hgname', -, hle, -⟩ := exists_code_of_mem_out hout hfits hr
      rwa [← final.codeBytes_of_mem hg', hgname', ← hgname, final.codeBytes_of_mem hg] at hle
    exact h.apart r hr hfar a ((LinkTable.code_subset_region hr hle).1 ha)

theorem userSource_leaf : UserSource leafModule constVals where
  direct := by decide
  noRegisters := by decide
  callee := by decide
  returns := by
    have hback : ∀ F ∈ leafModule.functions, IsUser F.name → F.name ≠ mainName →
        ∀ b ∈ F.blocks, F.IsBack b := by decide
    intro F hF huser hne b hb _ _
    exact hback F hF huser hne b hb
  values := by decide

theorem codeFits_leaf : CodeFits leafModule.functions leafListing leafListing := by
  intro f hf _
  have hscan : some (movwAt 0 (by decide)).line ≠ leafListing.lines.getLast? := by decide
  obtain ⟨name, hname, rfl⟩ := List.mem_pmap.mp hf
  refine ⟨by simp [shortSymbol], rfl, ?_, ?_, _, hf, rfl, le_rfl⟩
  · exact List.forall_mem_singleton.mpr hscan
  · show (4 : ℤ) + 2 - 0 ≤ 16384
    decide

end Run

end MpuPasses
