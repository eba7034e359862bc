import OpGraph.Proofs.Op.WindowCount

/-!
# Window inference does not fault

The inference rules of convolution and pooling use operations that always have a result: a missing entry of a
list is a default, and a quotient by zero and a difference below zero are zero.  On machine words these operations
fault, and a sum or a product faults when it leaves the words.  Here both rules are written down once more with
operations that fault, in the order in which a run meets them: `Convolution.inferOnWords` and
`MaxPool.inferOnWords`.

`windowInference_faultless` says that for every attribute and every input both come to the answer or the error of
the rule, unless a sum or a product leaves the words.  The checks stand in front of what they guard:
`Faultless.bind` hands on what a check has found out, and `Convolution.guards_of_check` and
`MaxPool.guards_of_check` say what that is.
-/

namespace OpGraph

variable {α β : Type} {limit : Option Nat}

/-- Why a computation on words ends without an answer. -/
inductive Stop where
  /-- The inference rule refuses its inputs. -/
  | refused (e : InferError)
  | outOfRange (index length : Nat)
  | divisionByZero
  | belowZero
  | overflow
  deriving DecidableEq

/-! ### Operations that fault -/

namespace Word

/-- The entry of a list. -/
def entry (xs : List α) (i : Nat) : Except Stop α :=
  match xs[i]? with
  | some a => .ok a
  | none => .error (.outOfRange i xs.length)

/-- The difference of two words. -/
def sub (a b : Nat) : Except Stop Nat :=
  if b ≤ a then .ok (a - b) else .error .belowZero

/-- The quotient of two words. -/
def div (a b : Nat) : Except Stop Nat :=
  if b = 0 then .error .divisionByZero else .ok (a / b)

/-- The quotient of two words, rounded up. -/
def divUp (a b : Nat) : Except Stop Nat :=
  if b = 0 then .error .divisionByZero else .ok (ceilDiv a b)

/-- A number as a word.  Words are the numbers below the limit, or all numbers if there is none. -/
def fit (limit : Option Nat) (n : Nat) : Except Stop Nat :=
  if limit.all (n < ·) then .ok n else .error .overflow

/-- The sum of two words. -/
def add (limit : Option Nat) (a b : Nat) : Except Stop Nat := fit limit (a + b)

/-- The product of two words. -/
def mul (limit : Option Nat) (a b : Nat) : Except Stop Nat := fit limit (a * b)

variable {a b : Nat}

theorem entry_eq {xs : List α} {i : Nat} {x : α} (h : xs[i]? = some x) : entry xs i = pure x := by
  rw [entry, h]
  rfl

theorem sub_eq (h : b ≤ a) : sub a b = pure (a - b) := if_pos h

theorem div_eq (h : 0 < b) : div a b = pure (a / b) := if_neg (Nat.ne_of_gt h)

theorem divUp_eq (h : 0 < b) : divUp a b = pure (ceilDiv a b) := if_neg (Nat.ne_of_gt h)

end Word

/-- The computation on words comes to the answer or the error of the rule, unless a sum or a product leaves the
words. -/
def Faultless (limit : Option Nat) (x : Except Stop α) (rule : Except InferError α) : Prop :=
  x = rule.mapError Stop.refused ∨ limit ≠ none ∧ x = .error .overflow

namespace Faultless

theorem ok (a : α) : Faultless limit (.ok a) (.ok a) := Or.inl rfl

theorem refused (e : InferError) : Faultless limit (.error (.refused e) : Except Stop α) (.error e) :=
  Or.inl rfl

/-- A check without any arithmetic is carried out as it is. -/
theorem check (rule : Except InferError α) : Faultless limit (rule.mapError Stop.refused) rule := Or.inl rfl

/-- What follows an answer may use that the rule has given it. -/
theorem bind {x : Except Stop α} {rule : Except InferError α} {f : α → Except Stop β}
    {next : α → Except InferError β} (hx : Faultless limit x rule)
    (hf : ∀ a, rule = .ok a → Faultless limit (f a) (next a)) :
    Faultless limit (x >>= f) (rule >>= next) := by
  rcases hx with rfl | ⟨hlimit, rfl⟩
  · cases rule with
    | ok a => exact hf a rfl
    | error e => exact refused e
  · exact Or.inr ⟨hlimit, rfl⟩

/-- A sum or a product is the number itself, or it has left the words. -/
theorem fit_bind {n : Nat} {f : Nat → Except Stop β} {rule : Except InferError β}
    (h : Faultless limit (f n) rule) : Faultless limit (Word.fit limit n >>= f) rule := by
  rw [Word.fit]
  split
  next => exact h
  next hn =>
    refine Or.inr ⟨?_, rfl⟩
    rintro rfl
    exact hn rfl

theorem fit (n : Nat) : Faultless limit (Word.fit limit n) (.ok n) := by
  have h : Faultless limit (Word.fit limit n >>= pure) (.ok n) := fit_bind (ok n)
  rwa [bind_pure] at h

theorem map {x : Except Stop α} {rule : Except InferError α} (hx : Faultless limit x rule)
    (f : α → β) : Faultless limit (x >>= fun a => pure (f a)) (rule.map f) := by
  have h : Faultless limit (x >>= fun a => pure (f a)) (rule >>= fun a => .ok (f a)) :=
    hx.bind fun a _ => ok (f a)
  cases rule <;> exact h

theorem mapM {xs : List α} {f : α → Except Stop β} {rule : α → Except InferError β}
    (h : ∀ x ∈ xs, Faultless limit (f x) (rule x)) :
    Faultless limit (xs.mapM f) (xs.mapM rule) := by
  induction xs with
  | nil => exact ok []
  | cons x xs ih =>
    obtain ⟨hx, hxs⟩ := List.forall_mem_cons.1 h
    rw [List.mapM_cons, List.mapM_cons]
    exact hx.bind fun y _ => (ih hxs).bind fun ys _ => ok (y :: ys)

end Faultless

/-! ### One axis -/

namespace Window

variable {w : Window}

/-- The number of window positions, computed on words. -/
def positionsOnWords (limit : Option Nat) (w : Window) (rounding : Rounding) (input kernel : Nat) :
    Except Stop Nat := do
  if kernel = 0 then
    throw (.refused (.shape "kernel length must be positive"))
  let leading ← Word.add limit input w.padBegin
  let padded ← Word.add limit leading w.padEnd
  let last ← Word.sub kernel 1
  let reach ← Word.mul limit last w.dilation
  let covered ← Word.add limit reach 1
  if covered > padded then
    throw (.refused (.shape s!"effective kernel {covered} is larger than padded input {padded}"))
  let span ← Word.sub padded covered
  match rounding with
  | .floor =>
    let steps ← Word.div span w.stride
    Word.add limit steps 1
  | .ceil =>
    let steps ← Word.divUp span w.stride
    let count ← Word.add limit steps 1
    let last ← Word.sub count 1
    let start ← Word.mul limit last w.stride
    let leading ← Word.add limit input w.padBegin
    if start ≥ leading then Word.sub count 1 else return count

/-- The output length of one spatial axis, computed on words. -/
def outputDimOnWords (limit : Option Nat) (w : Window) (pad : AutoPad) (rounding : Rounding)
    (input kernel : Dim) : Except Stop Dim :=
  let slide (w : Window) : Except Stop Dim :=
    match input, kernel with
    | .static n, .static k => do
      let count ← w.positionsOnWords limit rounding n k
      return .static count
    | _, _ => .ok .dynamic
  match pad with
  | .sameUpper | .sameLower =>
    match input with
    | .static n => do
      let count ← Word.divUp n w.stride
      return .static count
    | .dynamic => .ok .dynamic
  | .valid => slide w.unpadded
  | .explicit => slide w

/-- **The checks of an axis guard its arithmetic** where the stride is positive. -/
theorem faultless_positions (hs : 0 < w.stride) (rounding : Rounding) (n k : Nat) :
    Faultless limit (w.positionsOnWords limit rounding n k) (w.positions rounding n k) := by
  rw [positionsOnWords, positions.eq_def]
  by_cases hk : k = 0
  · rw [if_pos hk, if_pos hk]
    exact .refused _
  rw [if_neg hk, if_neg hk]
  refine .fit_bind (.fit_bind ?_)
  rw [Word.sub_eq (Nat.pos_of_ne_zero hk), pure_bind]
  refine .fit_bind (.fit_bind ?_)
  rw [← effectiveKernel]
  by_cases hcovered : w.effectiveKernel k > n + w.padBegin + w.padEnd
  · rw [if_pos hcovered, if_pos hcovered]
    exact .refused _
  rw [if_neg hcovered, if_neg hcovered]
  dsimp only
  rw [Word.sub_eq (Nat.not_lt.1 hcovered), pure_bind]
  cases rounding with
  | floor =>
    dsimp only
    rw [Word.div_eq hs, pure_bind]
    exact .fit _
  | ceil =>
    dsimp only
    rw [Word.divUp_eq hs, pure_bind]
    refine .fit_bind ?_
    rw [Word.sub_eq (Nat.le_add_left 1 _), pure_bind]
    refine .fit_bind (.fit_bind ?_)
    split
    next => exact .ok _
    next => exact .ok _

theorem faultless_outputDim (hs : 0 < w.stride) (pad : AutoPad) (rounding : Rounding)
    (input kernel : Dim) :
    Faultless limit (w.outputDimOnWords limit pad rounding input kernel)
      (w.outputDim pad rounding input kernel) := by
  have hwindows (w : Window) (hs : 0 < w.stride) (n k : Nat) : Faultless limit _ _ :=
    (faultless_positions hs rounding n k).map Dim.static
  cases input with
  | static n =>
    have hsame : Faultless limit (Word.divUp n w.stride >>= fun count => pure (Dim.static count))
        (.ok (.static (ceilDiv n w.stride))) := by
      rw [Word.divUp_eq hs, pure_bind]
      exact .ok _
    cases pad with
    | explicit =>
      cases kernel with
      | static k => exact hwindows w hs n k
      | dynamic => exact .ok _
    | valid =>
      cases kernel with
      | static k => exact hwindows w.unpadded hs n k
      | dynamic => exact .ok _
    | sameUpper => exact hsame
    | sameLower => exact hsame
  | dynamic => cases pad <;> exact .ok _

end Window

/-! ### Convolution -/

theorem checkAttribute_eq_ok {name : String} {values : List Nat} {spatial : Nat} {u : Unit} :
    checkAttribute name values spatial = .ok u ↔ values.length = spatial := by
  rw [checkAttribute]
  split <;> simp [*]

/-- A shape of known rank has a dimension for each axis. -/
theorem PartialShape.dimsOfRank_getElem? {s : PartialShape} {rank axis : Nat}
    (h : ∀ r, s.rank? = some r → r = rank) (haxis : axis < rank) :
    (s.dimsOfRank rank)[axis]? = some (s.dimAt axis) := by
  cases s with
  | unranked => exact List.getElem?_replicate_of_lt haxis
  | ranked dims =>
    have hlt : axis < dims.length := (h dims.length rfl).symm ▸ haxis
    show dims[axis]? = some (dims[axis]?.getD .dynamic)
    rw [List.getElem?_eq_getElem hlt, Option.getD_some]

/-- An entry that is there is not the default. -/
theorem getElem?_eq_some_getD {xs : List α} {i : Nat} (h : i < xs.length) (d : α) :
    xs[i]? = some (xs.getD i d) := by
  rw [List.getD_eq_getElem?_getD, List.getElem?_eq_getElem h, Option.getD_some]

namespace Convolution

/-- The inference rule of convolution, computed on words. -/
def inferOnWords (limit : Option Nat) (c : Convolution) (inputs : List Desc) :
    Except Stop (List Desc) := do
  (checkInputCount inputs 2).mapError Stop.refused
  let data ← Word.entry inputs 0
  let filters ← Word.entry inputs 1
  let type ← match data.elementType.merge filters.elementType with
    | some type => pure type
    | none =>
      let (a, b) := (data.elementType.name, filters.elementType.name)
      throw (.refused (.type s!"data and filter element types are inconsistent: {a} vs {b}"))
  if type = .boolean then
    throw (.refused (.type "arguments cannot have boolean element type"))
  match ← (rank? data.shape filters.shape).mapError Stop.refused with
  | none => return [⟨type, .unranked⟩]
  | some rank =>
    if rank < 3 then
      throw (.refused (.shape s!"expected rank of at least 3, got {rank}"))
    let spatial ← Word.sub rank 2
    (c.check spatial).mapError Stop.refused
    let input := data.shape.dimsOfRank rank
    let kernel := filters.shape.dimsOfRank rank
    let channels ← Word.entry input 1
    let filterChannels ← Word.entry kernel 1
    if (channels.merge filterChannels).isNone then
      let (a, b) := (channels.text, filterChannels.text)
      throw (.refused (.shape s!"data channels {a} and filter input channels {b} differ"))
    let batch ← Word.entry input 0
    let outChannels ← Word.entry kernel 0
    let windows ← (List.range spatial).mapM fun i => do
      let stride ← Word.entry c.strides i
      let dilation ← Word.entry c.dilations i
      let axis ← Word.add limit i 2
      let length ← Word.entry input axis
      let kernelLength ← Word.entry kernel axis
      Window.outputDimOnWords limit ⟨stride, dilation, c.padsBegin.getD i 0, c.padsEnd.getD i 0⟩
        c.autoPad .floor length kernelLength
    return [⟨type, .ranked (batch :: outChannels :: windows)⟩]

/-- What the checks of the attributes stand for. -/
theorem guards_of_check {c : Convolution} {spatial : Nat} (h : c.check spatial = .ok ()) :
    c.strides.length = spatial ∧ c.dilations.length = spatial := by
  rw [check] at h
  obtain ⟨_, hstrides, h⟩ := except_bind_eq_ok.1 h
  obtain ⟨_, hdilations, -⟩ := except_bind_eq_ok.1 h
  exact ⟨checkAttribute_eq_ok.1 hstrides, checkAttribute_eq_ok.1 hdilations⟩

theorem faultless_infer (c : Convolution) (inputs : List Desc) :
    Faultless limit (c.inferOnWords limit inputs) (c.infer inputs) := by
  match inputs with
  | [] => exact .refused _
  | [a] => exact .refused _
  | a :: b :: e :: rest => exact .refused _
  | [data, filters] =>
  rw [infer, inferOnWords]
  have hcount : (checkInputCount [data, filters] 2).mapError Stop.refused = pure () := rfl
  rw [hcount, pure_bind, Word.entry_eq rfl, pure_bind, Word.entry_eq rfl, pure_bind]
  cases data.elementType.merge filters.elementType with
  | none => exact .refused _
  | some type =>
  simp only [pure_bind]
  by_cases hbool : type = .boolean
  · rw [if_pos hbool, if_pos hbool]
    exact .refused _
  rw [if_neg hbool, if_neg hbool]
  refine (Faultless.check _).bind fun rank hrank => ?_
  cases rank with
  | none => exact .ok _
  | some rank =>
  dsimp only
  by_cases hlow : rank < 3
  · rw [if_pos hlow, if_pos hlow]
    exact .refused _
  rw [if_neg hlow, if_neg hlow]
  have hknown := rank?_eq_ok.1 hrank
  have hdata : ∀ r, data.shape.rank? = some r → r = rank := fun r hr =>
    (Option.some.inj ((hknown r).2 (Or.inl hr))).symm
  have hfilters : ∀ r, filters.shape.rank? = some r → r = rank := fun r hr =>
    (Option.some.inj ((hknown r).2 (Or.inr hr))).symm
  have hin {axis : Nat} (haxis : axis < rank) :=
    Word.entry_eq (PartialShape.dimsOfRank_getElem? hdata haxis)
  have hkernel {axis : Nat} (haxis : axis < rank) :=
    Word.entry_eq (PartialShape.dimsOfRank_getElem? hfilters haxis)
  rw [Word.sub_eq (by omega), pure_bind]
  refine (Faultless.check _).bind fun _ hcheck => ?_
  obtain ⟨hstrides, hdilations⟩ := guards_of_check hcheck
  simp only [PartialShape.dimsOfRank_getD]
  rw [hin (by omega), pure_bind, hkernel (by omega), pure_bind]
  by_cases hchannels : ((data.shape.dimAt 1).merge (filters.shape.dimAt 1)).isNone
  · rw [if_pos hchannels, if_pos hchannels]
    exact .refused _
  rw [if_neg hchannels, if_neg hchannels, hin (by omega), pure_bind, hkernel (by omega), pure_bind]
  refine (Faultless.mapM fun i hi => ?_).bind fun windows _ => .ok _
  have hi := List.mem_range.1 hi
  rw [Word.entry_eq (getElem?_eq_some_getD (hstrides ▸ hi) 1), pure_bind,
    Word.entry_eq (getElem?_eq_some_getD (hdilations ▸ hi) 1), pure_bind]
  refine .fit_bind ?_
  rw [hin (by omega), pure_bind, hkernel (by omega), pure_bind]
  exact Window.faultless_outputDim (stride_pos hcheck i) ..

end Convolution

/-! ### Pooling -/

namespace MaxPool

/-- The inference rule of max pooling, computed on words. -/
def inferOnWords (limit : Option Nat) (p : MaxPool) (inputs : List Desc) :
    Except Stop (List Desc) := do
  (checkInputCount inputs 1).mapError Stop.refused
  let data ← Word.entry inputs 0
  let spatial := p.kernel.length
  let rank ← Word.add limit spatial 2
  if let some r := data.shape.rank? then
    if r ≠ rank then
      throw (.refused (.shape s!"data rank {r} does not match kernel rank {spatial}"))
  (p.check spatial).mapError Stop.refused
  let input := data.shape.dimsOfRank rank
  let batch ← Word.entry input 0
  let channels ← Word.entry input 1
  let windows ← (List.range spatial).mapM fun i => do
    let stride ← Word.entry p.strides i
    let axis ← Word.add limit i 2
    let length ← Word.entry input axis
    let kernelLength ← Word.entry p.kernel i
    Window.outputDimOnWords limit ⟨stride, 1, p.padsBegin.getD i 0, p.padsEnd.getD i 0⟩
      p.autoPad p.rounding length (.static kernelLength)
  return [⟨data.elementType, .ranked (batch :: channels :: windows)⟩]

/-- What the checks of the attributes stand for. -/
theorem guards_of_check {p : MaxPool} {spatial : Nat} (h : p.check spatial = .ok ()) :
    p.strides.length = spatial := by
  rw [check] at h
  split at h
  next => cases h
  next =>
    obtain ⟨_, hstrides, -⟩ := except_bind_eq_ok.1 h
    exact checkAttribute_eq_ok.1 hstrides

theorem faultless_infer (p : MaxPool) (inputs : List Desc) :
    Faultless limit (p.inferOnWords limit inputs) (p.infer inputs) := by
  match inputs with
  | [] => exact .refused _
  | a :: b :: rest => exact .refused _
  | [data] =>
  rw [infer, inferOnWords]
  have hcount : (checkInputCount [data] 1).mapError Stop.refused = pure () := rfl
  rw [hcount, pure_bind, Word.entry_eq rfl, pure_bind]
  refine .fit_bind ?_
  by_cases hknown : ∀ r, data.shape.rank? = some r → r = p.kernel.length + 2
  swap
  · obtain ⟨r, hr, hne⟩ := by simpa only [not_forall, exists_prop] using hknown
    simp only [hr, if_pos hne]
    exact .refused _
  have hin {axis : Nat} (haxis : axis < p.kernel.length + 2) :=
    Word.entry_eq (PartialShape.dimsOfRank_getElem? hknown haxis)
  simp only [PartialShape.dimsOfRank_getD]
  -- a known rank passes its check, and an unknown one is not checked
  rcases hr : data.shape.rank? with _ | r
  on_goal 2 => simp only [hknown r hr, ne_eq, not_true, if_false]
  all_goals
    refine (Faultless.check _).bind fun _ hcheck => ?_
    rw [hin (by omega), pure_bind, hin (by omega), pure_bind]
    refine (Faultless.mapM fun i hi => ?_).bind fun windows _ => .ok _
    have hi := List.mem_range.1 hi
    have hstride : i < p.strides.length := guards_of_check hcheck ▸ hi
    rw [Word.entry_eq (getElem?_eq_some_getD hstride 1), pure_bind]
    refine .fit_bind ?_
    rw [hin (by omega), pure_bind, Word.entry_eq (getElem?_eq_some_getD hi 0), pure_bind]
    exact Window.faultless_outputDim (stride_pos hcheck i) ..

end MaxPool

/-- **Window inference does not fault.**  For all attributes, of the right lengths or not, and all inputs, the rule
on words comes to what the rule answers or refuses with its error: no entry is out of range, no divisor is zero and
no difference is below zero.  The only exception is a sum or a product that leaves the words, and there is none
where all numbers are words. -/
theorem windowInference_faultless (limit : Option Nat) (inputs : List Desc) :
    (∀ c : Convolution, c.inferOnWords limit inputs = (c.infer inputs).mapError Stop.refused ∨
      limit ≠ none ∧ c.inferOnWords limit inputs = .error .overflow) ∧
    ∀ p : MaxPool, p.inferOnWords limit inputs = (p.infer inputs).mapError Stop.refused ∨
      limit ≠ none ∧ p.inferOnWords limit inputs = .error .overflow :=
  ⟨fun c => c.faultless_infer inputs, fun p => p.faultless_infer inputs⟩

/-- Without its check a stride of zero would fault. -/
example : Window.positionsOnWords none ⟨0, 1, 0, 0⟩ .floor 7 3 = .error .divisionByZero := by decide

end OpGraph
