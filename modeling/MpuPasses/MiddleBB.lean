import MpuPasses.ExpectBB

/-!
# `middle_BB.txt`

`Insert_Nop` reads the sizes of the blocks from a file in the format of `BB_check1.py`. A line opens
a function or adds a block to the last one, as the character two places behind its colon is no digit
or is one; short lines are skipped. The reader undoes the writer (`readMiddle_middleText`). The
adjustments after it are for one program: `adjustNeed_isSome_iff` says which files have the entries
that they change.
-/

namespace MpuPasses

open Chars

/-! ## The reader -/

/-- `class func` of `Insert_Nop.cpp`. -/
structure NopFunc where
  name : Str
  bbCount : ℕ := 0
  bbSize : List ℤ := []
  bbNeedSize : List ℤ := []
  deriving DecidableEq, Repr

/-- `line.find(":")` kept in an `int`: no colon makes it −1. -/
def findColon (line : Str) : ℤ := (line.findIdx? (· = ':')).elim (-1) Nat.cast

/-- `s.substr(pos)`; `none` is a thrown `out_of_range`. -/
def substrFrom (s : Str) (pos : ℤ) : Option Str :=
  if 0 ≤ pos ∧ pos ≤ s.length then some (s.drop pos.toNat) else none

/-- `v[i]`; `none` is a place that the vector does not have. -/
def vecGet {α : Type*} (v : List α) (i : ℤ) : Option α := if 0 ≤ i then v[i.toNat]? else none

/-- `isdigit(token[0])`; behind the end of a string stands a zero. -/
def startsWithDigit (token : Str) : Bool := token.head?.any Char.isDigit

/-- One turn of the loop over the lines. `Funcs[cnt]` is the function that was opened last. -/
def readMiddleLine (funcs : List NopFunc) (line : Str) : Option (List NopFunc) :=
  if line.length > 1 then do
    let pos := findColon line
    let token ← substrFrom line (pos + 2)
    let cnt : ℤ := funcs.length - 1
    if startsWithDigit token then
      let size ← stoi token
      let f ← vecGet funcs cnt
      let bbSize := f.bbSize ++ [size]
      -- the size just added is printed from its place
      let _ ← bbSize[f.bbCount]?
      return funcs.set cnt.toNat { f with bbSize := bbSize, bbNeedSize := f.bbNeedSize ++ [128 - size],
                                          bbCount := f.bbCount + 1 }
    else return funcs ++ [{ name := token }]
  else return funcs

/-- `Funcs` after the loop. -/
def readMiddle (text : Str) : Option (List NopFunc) := Loop.forEach readMiddleLine [] (getlines text)

/-- Every block of the function has its size and its need. -/
structure NopFunc.Synced (f : NopFunc) : Prop where
  size : f.bbSize.length = f.bbCount
  need : f.bbNeedSize.length = f.bbCount

/-- One line keeps the lists of every function in step. -/
theorem readMiddleLine_synced {funcs funcs' : List NopFunc} {line : Str}
    (hfuncs : ∀ f ∈ funcs, f.Synced) (h : readMiddleLine funcs line = some funcs') :
    ∀ f ∈ funcs', f.Synced := by
  unfold readMiddleLine at h
  split_ifs at h with hlong
  · obtain ⟨token, -, h⟩ := Option.bind_eq_some_iff.mp h
    dsimp only at h
    split_ifs at h with hdigit
    · obtain ⟨size, -, h⟩ := Option.bind_eq_some_iff.mp h
      obtain ⟨f, hf, h⟩ := Option.bind_eq_some_iff.mp h
      obtain ⟨shown, -, h⟩ := Option.bind_eq_some_iff.mp h
      cases h
      have hmem : f ∈ funcs := by
        unfold vecGet at hf
        split_ifs at hf
        exact List.mem_of_getElem? hf
      intro g hg
      rcases List.mem_or_eq_of_mem_set hg with hg | rfl
      · exact hfuncs g hg
      · have hold := hfuncs f hmem
        constructor
        · rw [List.length_append, hold.size]
          rfl
        · rw [List.length_append, hold.need]
          rfl
    · cases h
      intro g hg
      rcases List.mem_append.mp hg with hg | hg
      · exact hfuncs g hg
      · obtain rfl := List.mem_singleton.mp hg
        exact ⟨rfl, rfl⟩
  · cases h
    exact hfuncs

/-- What was read is in step. -/
theorem readMiddle_synced {text : Str} {funcs : List NopFunc} (h : readMiddle text = some funcs) :
    ∀ f ∈ funcs, f.Synced := by
  apply Loop.forEach_invariant (fun funcs => ∀ f ∈ funcs, f.Synced)
    (fun _ _ _ hfuncs hline => readMiddleLine_synced hfuncs hline) _ h
  simp

/-! ## The file -/

/-- A function of the file: its name does not begin like a size, and its sizes are those of an
`int`. -/
structure SizeRecord where
  name : Str
  sizes : List ℕ
  noDigit : startsWithDigit name = false
  oneLine : '\n' ∉ name
  small : ∀ size ∈ sizes, size < 2 ^ 31

/-- The lines that `BB_check1.py` writes for a function. -/
def SizeRecord.lines (r : SizeRecord) : List Str :=
  nameLine r.name :: (r.sizes.zipIdx.map fun p => sizeLine p.1 p.2) ++ [[]]

/-- The text that `BB_check1.py` writes. -/
def middleText (rs : List SizeRecord) : Str :=
  (rs.flatMap SizeRecord.lines).flatMap fun line => line ++ ['\n']

/-- The function that a record stands for. -/
def SizeRecord.toFunc (r : SizeRecord) : NopFunc where
  name := r.name
  bbCount := r.sizes.length
  bbSize := r.sizes.map Nat.cast
  bbNeedSize := r.sizes.map fun size => 128 - (size : ℤ)

theorem getlines_middleText (rs : List SizeRecord) :
    getlines (middleText rs) = rs.flatMap SizeRecord.lines := by
  unfold middleText
  apply getlines_flatMap
  intro line hline
  obtain ⟨r, -, hr⟩ := List.mem_flatMap.mp hline
  unfold SizeRecord.lines at hr
  simp only [List.mem_append, List.mem_cons, List.mem_map, List.not_mem_nil, or_false] at hr
  rcases hr with (rfl | ⟨p, -, rfl⟩) | rfl
  · exact newline_notMem_nameLine r.oneLine
  · exact (oneLine_sizeLine _ _).newline
  · exact List.not_mem_nil

/-! ## The reader undoes the writer -/

/-- The token of a line with a key in front of its colon. -/
theorem substrFrom_findColon {key : Str} (hkey : ':' ∉ key) (token : Str) :
    substrFrom (key ++ ':' :: ' ' :: token) (findColon (key ++ ':' :: ' ' :: token) + 2) =
      some token := by
  have hidx : (key ++ ':' :: ' ' :: token).findIdx? (· = ':') = some key.length := by
    have hnone : key.findIdx? (· = ':') = none := by
      rw [List.findIdx?_eq_none_iff]
      rintro c hc
      exact decide_eq_false fun heq => hkey (heq ▸ hc)
    rw [List.findIdx?_append, hnone]
    simp [List.findIdx?_cons]
  have hpos : findColon (key ++ ':' :: ' ' :: token) = key.length := by
    unfold findColon
    rw [hidx]
    rfl
  have hlen : (key ++ ':' :: ' ' :: token).length = key.length + (token.length + 2) := by simp
  have hdrop : (key ++ ':' :: ' ' :: token).drop (key.length + 2) = token := by
    rw [← List.drop_drop, List.drop_left]
    rfl
  unfold substrFrom
  rw [hpos, if_pos ⟨by omega, by omega⟩, show ((key.length : ℤ) + 2).toNat = key.length + 2 by omega,
    hdrop]

/-- A name line opens a function. -/
theorem readMiddleLine_nameLine (funcs : List NopFunc) {name : Str}
    (hname : startsWithDigit name = false) :
    readMiddleLine funcs (nameLine name) = some (funcs ++ [{ name := name }]) := by
  have hlong : (nameLine name).length > 1 := by
    unfold nameLine
    simp
  have htoken : substrFrom (nameLine name) (findColon (nameLine name) + 2) = some name :=
    substrFrom_findColon (by simp) name
  unfold readMiddleLine
  simp [hlong, htoken, hname]

/-- A line with a size adds a block to the function that was opened last. -/
theorem readMiddleLine_sizeLine (done : List NopFunc) {f : NopFunc} (hf : f.Synced) {size : ℕ}
    (hsize : size < 2 ^ 31) (j : ℕ) :
    readMiddleLine (done ++ [f]) (sizeLine size j) = some (done ++
      [{ f with bbSize := f.bbSize ++ [(size : ℤ)], bbNeedSize := f.bbNeedSize ++ [128 - (size : ℤ)],
                bbCount := f.bbCount + 1 }]) := by
  have hlong : (sizeLine size j).length > 1 := by
    unfold sizeLine
    simp
  have hkey : ':' ∉ "BB".toList ++ pyStr (j + 1) ++ " size".toList := by
    have hj : ':' ∉ pyStr (j + 1) := fun h => (plain_of_mem_decimal h).colon rfl
    simp [hj]
  have htoken : substrFrom (sizeLine size j) (findColon (sizeLine size j) + 2) =
      some (pyStr size) := substrFrom_findColon hkey (pyStr size)
  have hdigit : startsWithDigit (pyStr size) = true := by
    obtain ⟨c, t, ht⟩ := List.exists_cons_of_ne_nil (pyStr_ne_nil size)
    have hc : c ∈ Nat.toDigits 10 size := by
      show c ∈ pyStr size
      rw [ht]
      exact List.mem_cons_self
    unfold startsWithDigit
    rw [ht, List.head?_cons, Option.any_some]
    exact isDigit_of_mem_decimal hc
  have hstoi := stoi_pyStr hsize
  have hlast : vecGet (done ++ [f]) (((done ++ [f]).length : ℤ) - 1) = some f := by
    have hcnt : ((done ++ [f]).length : ℤ) - 1 = (done.length : ℤ) := by simp
    unfold vecGet
    rw [hcnt, if_pos (by omega), Int.toNat_natCast, List.getElem?_concat_length]
  have hshown : (f.bbSize ++ [(size : ℤ)])[f.bbCount]? = some (size : ℤ) := by
    rw [← hf.size, List.getElem?_concat_length]
  have hcnt : (((done ++ [f]).length : ℤ) - 1).toNat = done.length := by simp
  unfold readMiddleLine
  simp only [hlong, if_true, htoken, hdigit, hstoi, hlast, hshown, hcnt, Option.bind_eq_bind,
    Option.bind_some, Option.pure_def, List.set_append_right _ _ (le_refl done.length), Nat.sub_self,
    List.set_cons_zero]

theorem readMiddleLine_nil (funcs : List NopFunc) : readMiddleLine funcs [] = some funcs := rfl

/-- The lines of the sizes fill the function that was opened last. -/
theorem forEach_readMiddleLine_sizes (done : List NopFunc) {f : NopFunc} (hf : f.Synced) (sizes : List ℕ)
    (hsizes : ∀ size ∈ sizes, size < 2 ^ 31) (i : ℕ) :
    Loop.forEach readMiddleLine (done ++ [f]) ((sizes.zipIdx i).map fun p => sizeLine p.1 p.2) =
      some (done ++ [{ f with bbSize := f.bbSize ++ sizes.map Nat.cast
                              bbNeedSize := f.bbNeedSize ++ sizes.map fun size => 128 - (size : ℤ)
                              bbCount := f.bbCount + sizes.length }]) := by
  induction sizes generalizing f i with
  | nil => simp [Loop.forEach]
  | cons size sizes ih =>
    obtain ⟨hsize, hsizes⟩ := List.forall_mem_cons.mp hsizes
    have hnext : ({ f with bbSize := f.bbSize ++ [(size : ℤ)]
                           bbNeedSize := f.bbNeedSize ++ [128 - (size : ℤ)]
                           bbCount := f.bbCount + 1 } : NopFunc).Synced := by
      constructor
      · simp [hf.size]
      · simp [hf.need]
    rw [List.zipIdx_cons, List.map_cons, Loop.forEach_cons, readMiddleLine_sizeLine done hf hsize,
      Option.bind_some, ih hnext hsizes]
    simp [Nat.add_assoc, Nat.add_comm 1]

/-- The lines of a record are read into its function. -/
theorem forEach_readMiddleLine_lines (done : List NopFunc) (r : SizeRecord) :
    Loop.forEach readMiddleLine done r.lines = some (done ++ [r.toFunc]) := by
  have hnew : ({ name := r.name } : NopFunc).Synced := ⟨rfl, rfl⟩
  unfold SizeRecord.lines
  rw [List.cons_append, Loop.forEach_cons, readMiddleLine_nameLine done r.noDigit, Option.bind_some,
    Loop.forEach_append, forEach_readMiddleLine_sizes done hnew r.sizes r.small, Option.bind_some,
    Loop.forEach_cons, readMiddleLine_nil]
  simp [Loop.forEach, SizeRecord.toFunc]

/-- The lines of the records are read one by one. -/
theorem forEach_readMiddleLine_records (done : List NopFunc) (rs : List SizeRecord) :
    Loop.forEach readMiddleLine done (rs.flatMap SizeRecord.lines) =
      some (done ++ rs.map SizeRecord.toFunc) := by
  induction rs generalizing done with
  | nil => simp [Loop.forEach]
  | cons r rs ih =>
    rw [List.flatMap_cons, Loop.forEach_append, forEach_readMiddleLine_lines, Option.bind_some, ih]
    simp

/-- **Reading undoes writing.** -/
theorem readMiddle_middleText (rs : List SizeRecord) :
    readMiddle (middleText rs) = some (rs.map SizeRecord.toFunc) := by
  unfold readMiddle
  rw [getlines_middleText, forEach_readMiddleLine_records, List.nil_append]

/-! ## The listing -/

/-- The sizes and needs that `print` shows. -/
def NopFunc.print (f : NopFunc) : Option (List (ℤ × ℤ)) :=
  (List.range f.bbCount).mapM fun i => do
    let size ← f.bbSize[i]?
    let need ← f.bbNeedSize[i]?
    return (size, need)

theorem NopFunc.Synced.print_isSome {f : NopFunc} (hf : f.Synced) : f.print.isSome := by
  have hrow : ∀ i ∈ List.range f.bbCount, ∃ row, (do
      let size ← f.bbSize[i]?
      let need ← f.bbNeedSize[i]?
      return (size, need)) = some row ∧ True := by
    intro i hi
    have hlt := List.mem_range.mp hi
    rw [List.getElem?_eq_getElem (hf.size ▸ hlt), List.getElem?_eq_getElem (hf.need ▸ hlt)]
    exact ⟨_, rfl, trivial⟩
  obtain ⟨rows, hrows, -⟩ := Loop.exists_mapM_forall hrow
  exact Option.isSome_of_eq_some hrows

/-! ## The adjustments -/

/-- `Funcs[i]->BB_need_size[j] += d` as `(i, j, d)`. -/
def adjustments : List (ℕ × ℕ × ℤ) :=
  [(0, 0, 2), (1, 0, -4), (2, 0, -4), (3, 0, 2), (5, 0, -4), (6, 0, -4)]

/-- One adjustment; `none` is a function or a block that is not there. -/
def adjustOne (funcs : List NopFunc) (a : ℕ × ℕ × ℤ) : Option (List NopFunc) := do
  let f ← funcs[a.1]?
  let need ← f.bbNeedSize[a.2.1]?
  return funcs.set a.1 { f with bbNeedSize := f.bbNeedSize.set a.2.1 (need + a.2.2) }

def adjustNeed (funcs : List NopFunc) : Option (List NopFunc) :=
  Loop.forEach adjustOne funcs adjustments

/-- The function of every adjustment has a first block. -/
def HasAdjusted (funcs : List NopFunc) : Prop :=
  ∀ i ∈ [0, 1, 2, 3, 5, 6], ∃ f, funcs[i]? = some f ∧ 0 < f.bbNeedSize.length

/-- What an adjustment leaves alone: the names and how many needs there are. -/
def NopFunc.shape (f : NopFunc) : Str × ℕ := (f.name, f.bbNeedSize.length)

theorem adjustOne_shape {funcs funcs' : List NopFunc} {a : ℕ × ℕ × ℤ}
    (h : adjustOne funcs a = some funcs') : funcs'.map NopFunc.shape = funcs.map NopFunc.shape := by
  obtain ⟨f, hf, h⟩ := Option.bind_eq_some_iff.mp h
  obtain ⟨need, -, h⟩ := Option.bind_eq_some_iff.mp h
  cases h
  have hshape : ({ f with bbNeedSize := f.bbNeedSize.set a.2.1 (need + a.2.2) } : NopFunc).shape =
      f.shape := by
    unfold NopFunc.shape
    rw [List.length_set]
  have hself : (funcs.map NopFunc.shape)[a.1]? = some f.shape := by
    rw [List.getElem?_map, hf]
    rfl
  obtain ⟨hlt, hget⟩ := List.getElem?_eq_some_iff.mp hself
  rw [List.map_set, hshape, ← hget, List.set_getElem_self]

theorem adjustNeed_shape {funcs funcs' : List NopFunc} (h : adjustNeed funcs = some funcs') :
    funcs'.map NopFunc.shape = funcs.map NopFunc.shape :=
  Loop.forEach_invariant (fun now => now.map NopFunc.shape = funcs.map NopFunc.shape)
    (fun _ _ _ hnow hturn => (adjustOne_shape hturn).trans hnow) rfl h

/-- The entry that an adjustment changes is there just if the file has it. -/
theorem adjustOne_isSome_iff {funcs now : List NopFunc}
    (hnow : now.map NopFunc.shape = funcs.map NopFunc.shape) (a : ℕ × ℕ × ℤ) :
    (adjustOne now a).isSome ↔ ∃ f, funcs[a.1]? = some f ∧ a.2.1 < f.bbNeedSize.length := by
  have hget := congrArg (fun l => l[a.1]?) hnow
  simp only [List.getElem?_map] at hget
  unfold adjustOne
  cases hf : funcs[a.1]? with
  | none =>
    rw [hf, Option.map_none, Option.map_eq_none_iff] at hget
    simp [hget]
  | some f =>
    rw [hf, Option.map_some] at hget
    obtain ⟨g, hg, hshape⟩ := Option.map_eq_some_iff.mp hget
    have hlen : g.bbNeedSize.length = f.bbNeedSize.length := congrArg Prod.snd hshape
    have hneed : (g.bbNeedSize[a.2.1]?).isSome ↔ a.2.1 < f.bbNeedSize.length := by
      rw [← hlen]
      simp
    rw [hg, Option.bind_eq_bind, Option.bind_some]
    cases hget : g.bbNeedSize[a.2.1]? with
    | none => simpa [hget] using hneed
    | some need => simpa [hget] using hneed

/-- **The adjustments stay inside the vectors** just if the functions that they name have a block. -/
theorem adjustNeed_isSome_iff (funcs : List NopFunc) :
    (adjustNeed funcs).isSome ↔ HasAdjusted funcs := by
  have hturn : ∀ (a : ℕ × ℕ × ℤ) (_ : List (ℕ × ℕ × ℤ)) (now : List NopFunc),
      now.map NopFunc.shape = funcs.map NopFunc.shape →
      ((adjustOne now a).isSome ↔ ∃ f, funcs[a.1]? = some f ∧ a.2.1 < f.bbNeedSize.length) ∧
        ∀ t, adjustOne now a = some t → t.map NopFunc.shape = funcs.map NopFunc.shape :=
    fun a _ now hnow => ⟨adjustOne_isSome_iff hnow a, fun t ht => (adjustOne_shape ht).trans hnow⟩
  unfold adjustNeed
  rw [Loop.forEach_isSome_iff (fun _ now => now.map NopFunc.shape = funcs.map NopFunc.shape)
    (fun a => ∃ f, funcs[a.1]? = some f ∧ a.2.1 < f.bbNeedSize.length) hturn rfl]
  unfold HasAdjusted adjustments
  simp

/-- `Funcs` as the loop over the module finds it. -/
def loadFuncs (text : Str) : Option (List NopFunc) := do
  let funcs ← readMiddle text
  let _ ← funcs.mapM NopFunc.print
  adjustNeed funcs

/-- What was read can be listed. -/
theorem loadFuncs_eq {text : Str} {funcs : List NopFunc} (h : readMiddle text = some funcs) :
    loadFuncs text = adjustNeed funcs := by
  have hprint : ∀ f ∈ funcs, ∃ rows, f.print = some rows ∧ True := fun f hf =>
    ⟨_, Option.some_get (readMiddle_synced h f hf).print_isSome |>.symm, trivial⟩
  obtain ⟨rows, hrows, -⟩ := Loop.exists_mapM_forall hprint
  unfold loadFuncs
  simp only [h, hrows, Option.bind_eq_bind, Option.bind_some]

end MpuPasses
