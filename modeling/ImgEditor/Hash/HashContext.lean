import ImgEditor.Hash.Md5
import ImgEditor.Core.Dd

namespace ImgEditor

open Storage

inductive HashTypeId where
  | md5
  | sha1
  | sha224
  | sha256
  | sha384
  | sha512
deriving DecidableEq

def HashTypeId.sha : HashTypeId → Option ShaAlgo
  | .md5 => none
  | .sha1 => some ImgEditor.sha1
  | .sha224 => some ImgEditor.sha224
  | .sha256 => some ImgEditor.sha256
  | .sha384 => some ImgEditor.sha384
  | .sha512 => some ImgEditor.sha512

/-- The context of the algorithm that `id` names. -/
inductive HashContext where
  | md5 (context : Md5Ctx)
  | sha (algo : ShaAlgo) (context : ShaContext algo)

def ShaError.code : ShaError → Int
  | .null => 1
  | .inputTooLong => 2
  | .stateError => 3
  | .badParam => 4

def hashContextInit (id : HashTypeId) : HashContext :=
  match id.sha with
  | none => .md5 (md5Init (List.replicate 64 0#8))
  | some algo => .sha algo (shaReset (Vector.replicate algo.blockSize 0#8))

/-- The bytes that are read: the length is passed on as an `unsigned int`. -/
def hashContextFed (data : List Byte) : List Byte := data.take (data.length % 2 ^ 32)

def hashContextUpdate (ctx : HashContext) (data : List Byte) : Option (Int × HashContext) :=
  match ctx with
  | .md5 context => (md5Update context (hashContextFed data)).map fun context => (0, .md5 context)
  | .sha algo context =>
    (shaInput context (hashContextFed data)).map fun (error, context) =>
      (-(error.map ShaError.code).getD 0, .sha algo context)

/-- The bytes that are stored to a buffer of `bufsz` bytes, whose number is the result. -/
def hashContextFinish (ctx : HashContext) (bufsz : Nat) : Option (List Byte × HashContext) :=
  match ctx with
  | .md5 context => (md5Final context).map fun (dgst, context) => (dgst.take bufsz, .md5 context)
  | .sha algo context =>
    (shaResult context).map fun (error, dgst, context) =>
      (if -(error.map ShaError.code).getD 0 < 0 then [] else (dgst.getD []).take bufsz, .sha algo context)

/-- Updates one after the other, with what each returns. -/
def hashContextUpdates (ctx : HashContext) : List (List Byte) → Option (List Int × HashContext)
  | [] => some ([], ctx)
  | data :: rest => do
    let (ret, ctx) ← hashContextUpdate ctx data
    let (rets, ctx) ← hashContextUpdates ctx rest
    some (ret :: rets, ctx)

/-- The digest that the name stands for. -/
def HashTypeId.reference (id : HashTypeId) (message : List Byte) : List Byte :=
  match id.sha with
  | none => md5Digest md5State message
  | some algo => algo.reference message

/-- What a context can count: SHA the bits of the message, MD5 a piece and the end of the block behind it. -/
def HashTypeId.Room (id : HashTypeId) (taken piece : Nat) : Prop :=
  match id.sha with
  | none => piece + 63 < 2 ^ 32
  | some algo => 8 * (taken + piece) < 2 ^ (2 * algo.w)

/-- All pieces fit behind a message of `taken` bytes. -/
def HashTypeId.Fits (id : HashTypeId) : Nat → List (List Byte) → Prop
  | _, [] => True
  | taken, data :: rest => id.Room taken (hashContextFed data).length ∧ id.Fits (taken + (hashContextFed data).length) rest

/-- The context behind a message. -/
def HashContext.Took (id : HashTypeId) (ctx : HashContext) (message : List Byte) : Prop :=
  match id.sha with
  | none => ∃ context, ctx = .md5 context ∧ context.Took md5State message
  | some algo => ∃ context, ctx = .sha algo context ∧ context.Took message

section Runs

variable {id : HashTypeId} {ctx : HashContext} {message : List Byte}

theorem hashContextInit_took (id : HashTypeId) : (hashContextInit id).Took id [] := by
  rw [HashContext.Took, hashContextInit]
  cases id.sha with
  | none => exact ⟨_, rfl, md5Start_took _ List.length_replicate⟩
  | some algo => exact ⟨_, rfl, shaReset_took _⟩

theorem hashContextUpdate_md5 {start : List (BitVec 32)} {context : Md5Ctx} (took : context.Took start message)
    {data : List Byte} (room : (hashContextFed data).length + 63 < 2 ^ 32) :
    ∃ context', hashContextUpdate (.md5 context) data = some (0, .md5 context') ∧
      context'.Took start (message ++ hashContextFed data) := by
  obtain ⟨context', run, took'⟩ := md5Update_took took room
  rw [hashContextUpdate, run]
  exact ⟨context', rfl, took'⟩

theorem hashContextUpdate_sha {algo : ShaAlgo} {context : ShaContext algo} (took : context.Took message) {data : List Byte}
    (room : 8 * (message.length + (hashContextFed data).length) < 2 ^ (2 * algo.w)) :
    ∃ context', hashContextUpdate (.sha algo context) data = some (0, .sha algo context') ∧
      context'.Took (message ++ hashContextFed data) := by
  obtain ⟨context', run, took'⟩ := shaInput_took took (hashContextFed data) room
  rw [hashContextUpdate, run]
  exact ⟨context', rfl, took'⟩

theorem hashContextUpdate_took (took : ctx.Took id message) (data : List Byte)
    (room : id.Room message.length (hashContextFed data).length) :
    ∃ ctx', hashContextUpdate ctx data = some (0, ctx') ∧ ctx'.Took id (message ++ hashContextFed data) := by
  rw [HashContext.Took] at took
  rw [HashTypeId.Room] at room
  simp only [HashContext.Took]
  cases family : id.sha with
  | none =>
    simp only [family] at took room ⊢
    obtain ⟨context, rfl, took⟩ := took
    obtain ⟨context', run, took'⟩ := hashContextUpdate_md5 took room
    exact ⟨_, run, context', rfl, took'⟩
  | some algo =>
    simp only [family] at took room ⊢
    obtain ⟨context, rfl, took⟩ := took
    obtain ⟨context', run, took'⟩ := hashContextUpdate_sha took room
    exact ⟨_, run, context', rfl, took'⟩

theorem hashContextFinish_took (took : ctx.Took id message) (bufsz : Nat) :
    ∃ ctx', hashContextFinish ctx bufsz = some ((id.reference message).take bufsz, ctx') := by
  rw [HashContext.Took] at took
  rw [HashTypeId.reference]
  cases family : id.sha with
  | none =>
    simp only [family] at took ⊢
    obtain ⟨context, rfl, took⟩ := took
    obtain ⟨context', run, _⟩ := md5Final_took took
    rw [hashContextFinish, run]
    exact ⟨_, rfl⟩
  | some algo =>
    simp only [family] at took ⊢
    obtain ⟨context, rfl, took⟩ := took
    obtain ⟨context', run, _⟩ := shaResult_took took
    rw [hashContextFinish, run]
    exact ⟨_, rfl⟩

theorem hashContextUpdates_took (took : ctx.Took id message) {pieces : List (List Byte)}
    (fits : id.Fits message.length pieces) :
    ∃ ctx', hashContextUpdates ctx pieces = some (List.replicate pieces.length 0, ctx') ∧
      ctx'.Took id (message ++ pieces.flatMap hashContextFed) := by
  induction pieces generalizing ctx message with
  | nil =>
    rw [List.flatMap_nil, List.append_nil]
    exact ⟨ctx, rfl, took⟩
  | cons data pieces ih =>
    obtain ⟨next, step, took'⟩ := hashContextUpdate_took took data fits.1
    have rest := fits.2
    rw [← List.length_append] at rest
    obtain ⟨last, run, tooks⟩ := ih took' rest
    rw [List.append_assoc, ← List.flatMap_cons] at tooks
    refine ⟨last, ?_, tooks⟩
    rw [hashContextUpdates, step, Option.bind_eq_bind, Option.bind_some]
    dsimp only
    rw [run]
    rfl

end Runs

/-- However a message is cut into updates, the digest is that of the whole message. -/
theorem hashContext_digest (id : HashTypeId) {pieces : List (List Byte)} (fits : id.Fits 0 pieces) (bufsz : Nat) :
    ∃ ctx ctx', hashContextUpdates (hashContextInit id) pieces = some (List.replicate pieces.length 0, ctx) ∧
      hashContextFinish ctx bufsz = some ((id.reference (pieces.flatMap hashContextFed)).take bufsz, ctx') := by
  obtain ⟨ctx, run, took⟩ := hashContextUpdates_took (hashContextInit_took id) fits
  obtain ⟨ctx', finish⟩ := hashContextFinish_took took bufsz
  exact ⟨ctx, ctx', run, finish⟩

theorem hashContext_digest_letters :
    ∃ ctx ctx', hashContextUpdates (hashContextInit .sha1) [[97], [98, 99]] = some ([0, 0], ctx) ∧
      hashContextFinish ctx 64 = some ((HashTypeId.sha1.reference [97, 98, 99]).take 64, ctx') :=
  @hashContext_digest .sha1 [[97], [98, 99]]
    ⟨show 8 * (0 + 1) < 2 ^ 64 by decide, show 8 * (1 + 2) < 2 ^ 64 by decide, trivial⟩ 64

example : HashTypeId.sha1.reference [97, 98, 99] =
    [0xa9, 0x99, 0x3e, 0x36, 0x47, 0x06, 0x81, 0x6a, 0xba, 0x3e, 0x25, 0x71, 0x78, 0x50, 0xc2, 0x6c, 0x9c, 0xd0,
      0xd8, 0x9d] := by decide +kernel

section Calls

inductive HashCall where
  | update (data : List Byte)
  | finish (bufsz : Nat)

/-- What a call returns: an `int`, or the bytes of the digest that are stored. -/
inductive HashAnswer where
  | ret (ret : Int)
  | dgst (dgst : List Byte)

def hashContextCall (ctx : HashContext) : HashCall → Option (HashAnswer × HashContext)
  | .update data => (hashContextUpdate ctx data).map fun (ret, ctx) => (.ret ret, ctx)
  | .finish bufsz => (hashContextFinish ctx bufsz).map fun (dgst, ctx) => (.dgst dgst, ctx)

def hashContextCalls (ctx : HashContext) : List HashCall → Option (List HashAnswer × HashContext)
  | [] => some ([], ctx)
  | call :: rest => do
    let (answer, ctx) ← hashContextCall ctx call
    let (answers, ctx) ← hashContextCalls ctx rest
    some (answer :: answers, ctx)

/-- What a context is for its user: it takes a message, and after `finish` SHA keeps its digest, where MD5 takes
    another message from a state of zeros. -/
inductive HashPhase where
  | taking (message : List Byte)
  | again (message : List Byte)
  | done (message : List Byte)
  | refused

def HashTypeId.answer (id : HashTypeId) : HashPhase → HashCall → HashAnswer × HashPhase
  | .taking message, .update data => (.ret 0, .taking (message ++ hashContextFed data))
  | .taking message, .finish bufsz =>
    (.dgst ((id.reference message).take bufsz), if id = .md5 then .again [] else .done message)
  | .again message, .update data => (.ret 0, .again (message ++ hashContextFed data))
  | .again message, .finish bufsz => (.dgst ((md5Digest (List.replicate 4 0) message).take bufsz), .again [])
  | .done message, .update data => if hashContextFed data = [] then (.ret 0, .done message) else (.ret (-3), .refused)
  | .done message, .finish bufsz => (.dgst ((id.reference message).take bufsz), .done message)
  | .refused, .update data => if hashContextFed data = [] then (.ret 0, .refused) else (.ret (-3), .refused)
  | .refused, .finish _ => (.dgst [], .refused)

def HashTypeId.answers (id : HashTypeId) (phase : HashPhase) : List HashCall → List HashAnswer
  | [] => []
  | call :: rest => (id.answer phase call).1 :: id.answers (id.answer phase call).2 rest

/-- A call that the context of this phase can count. -/
def HashTypeId.Counts (id : HashTypeId) : HashPhase → HashCall → Prop
  | .taking message, .update data => id.Room message.length (hashContextFed data).length
  | .again _, .update data => (hashContextFed data).length + 63 < 2 ^ 32
  | _, _ => True

def HashTypeId.CountsAll (id : HashTypeId) (phase : HashPhase) : List HashCall → Prop
  | [] => True
  | call :: rest => id.Counts phase call ∧ id.CountsAll (id.answer phase call).2 rest

def HashContext.Shows (id : HashTypeId) (ctx : HashContext) : HashPhase → Prop
  | .taking message => ctx.Took id message
  | .again message => ∃ context, ctx = .md5 context ∧ context.Took (List.replicate 4 0) message
  | .done message => ∃ algo context, id.sha = some algo ∧ ctx = .sha algo context ∧ context.computed = true ∧
      shaResult context = some (none, some (algo.reference message), context)
  | .refused => ∃ algo context, ctx = .sha algo context ∧ context.computed = true ∧ context.corrupted = some .stateError

variable {id : HashTypeId} {ctx : HashContext}

theorem HashTypeId.sha_none (id : HashTypeId) : id.sha = none ↔ id = .md5 := by
  cases id <;> simp [HashTypeId.sha]

theorem hashContextUpdate_none {algo : ShaAlgo} (context : ShaContext algo) {data : List Byte}
    (empty : hashContextFed data = []) : hashContextUpdate (.sha algo context) data = some (0, .sha algo context) := by
  rw [hashContextUpdate, empty]
  rfl

theorem hashContextUpdate_late {algo : ShaAlgo} {context : ShaContext algo} (computed : context.computed = true)
    {data : List Byte} (some_ : hashContextFed data ≠ []) :
    hashContextUpdate (.sha algo context) data =
      some (-3, .sha algo { context with corrupted := some .stateError }) := by
  rw [hashContextUpdate, shaInput_computed computed some_]
  rfl

theorem hashContextFinish_shows {message : List Byte} (took : ctx.Took id message) (bufsz : Nat) :
    ∃ ctx', hashContextFinish ctx bufsz = some ((id.reference message).take bufsz, ctx') ∧
      ctx'.Shows id (if id = .md5 then .again [] else .done message) := by
  rw [HashContext.Took] at took
  rw [HashTypeId.reference]
  cases family : id.sha with
  | none =>
    simp only [family] at took ⊢
    obtain ⟨context, rfl, took⟩ := took
    obtain ⟨context', run, restarted⟩ := md5Final_took took
    rw [hashContextFinish, run, if_pos (id.sha_none.mp family)]
    exact ⟨_, rfl, context', rfl, restarted⟩
  | some algo =>
    have other : id ≠ .md5 := by
      intro same
      rw [id.sha_none.mpr same] at family
      cases family
    simp only [family] at took ⊢
    obtain ⟨context, rfl, took⟩ := took
    obtain ⟨context', run, computed, same⟩ := shaResult_took took
    rw [hashContextFinish, run, if_neg other]
    exact ⟨_, rfl, algo, context', family, rfl, computed, same⟩

/-- A call answers as the phase says and leaves the context of the next phase. -/
theorem hashContextCall_shows {phase : HashPhase} (shows_ : ctx.Shows id phase) {call : HashCall}
    (counts : id.Counts phase call) :
    ∃ ctx', hashContextCall ctx call = some ((id.answer phase call).1, ctx') ∧ ctx'.Shows id (id.answer phase call).2 := by
  cases phase with
  | taking message =>
    cases call with
    | update data =>
      obtain ⟨ctx', run, took⟩ := hashContextUpdate_took shows_ data counts
      rw [hashContextCall, run]
      exact ⟨ctx', rfl, took⟩
    | finish bufsz =>
      obtain ⟨ctx', run, next⟩ := hashContextFinish_shows shows_ bufsz
      rw [hashContextCall, run]
      exact ⟨ctx', rfl, next⟩
  | again message =>
    obtain ⟨context, rfl, took⟩ := shows_
    cases call with
    | update data =>
      obtain ⟨context', run, took'⟩ := hashContextUpdate_md5 took counts
      rw [hashContextCall, run]
      exact ⟨_, rfl, context', rfl, took'⟩
    | finish bufsz =>
      obtain ⟨context', run, restarted⟩ := md5Final_took took
      rw [hashContextCall, hashContextFinish, run]
      exact ⟨_, rfl, context', rfl, restarted⟩
  | done message =>
    obtain ⟨algo, context, family, rfl, computed, same⟩ := shows_
    cases call with
    | update data =>
      by_cases empty : hashContextFed data = []
      · rw [hashContextCall, hashContextUpdate_none context empty, HashTypeId.answer, if_pos empty]
        exact ⟨_, rfl, algo, context, family, rfl, computed, same⟩
      · rw [hashContextCall, hashContextUpdate_late computed empty, HashTypeId.answer, if_neg empty]
        exact ⟨_, rfl, algo, _, rfl, computed, rfl⟩
    | finish bufsz =>
      rw [hashContextCall, hashContextFinish, same, HashTypeId.answer, HashTypeId.reference, family]
      exact ⟨_, rfl, algo, context, family, rfl, computed, same⟩
  | refused =>
    obtain ⟨algo, context, rfl, computed, error⟩ := shows_
    cases call with
    | update data =>
      by_cases empty : hashContextFed data = []
      · rw [hashContextCall, hashContextUpdate_none context empty, HashTypeId.answer, if_pos empty]
        exact ⟨_, rfl, algo, context, rfl, computed, error⟩
      · rw [hashContextCall, hashContextUpdate_late computed empty, HashTypeId.answer, if_neg empty]
        exact ⟨_, rfl, algo, _, rfl, computed, rfl⟩
    | finish bufsz =>
      have failed : shaResult context = some (some .stateError, none, context) := by
        rw [shaResult, error, if_pos (Option.some_ne_none _)]
      rw [hashContextCall, hashContextFinish, failed]
      exact ⟨_, rfl, algo, context, rfl, computed, error⟩

theorem hashContextCalls_shows {phase : HashPhase} (shows_ : ctx.Shows id phase) {calls : List HashCall}
    (counts : id.CountsAll phase calls) :
    ∃ ctx', hashContextCalls ctx calls = some (id.answers phase calls, ctx') := by
  induction calls generalizing ctx phase with
  | nil => exact ⟨ctx, rfl⟩
  | cons call calls ih =>
    obtain ⟨next, step, shows'⟩ := hashContextCall_shows shows_ counts.1
    obtain ⟨last, run⟩ := ih shows' counts.2
    rw [hashContextCalls, step, Option.bind_eq_bind, Option.bind_some]
    dsimp only
    rw [run]
    exact ⟨last, rfl⟩

end Calls

section Simulation

variable {σ τ : Type}

/-- Two scan callbacks that pass the same bytes on and keep a relation between what they hold. The relation
counts the buffers that may still come. -/
structure ScanSimulates (R : Nat → σ → τ → Prop) (f : BufScan σ) (g : BufScan τ) : Prop where
  fewer : ∀ {room left s t}, left ≤ room → R room s t → R left s t
  scan : ∀ {room bytes s t}, bytes.length ≤ ddMaxBufsz → R (room + 1) s t →
    (f bytes s).1 = (g bytes t).1 ∧ R room (f bytes s).2 (g bytes t).2

structure DdState.Related (R : σ → τ → Prop) (st : DdState σ) (st' : DdState τ) : Prop where
  src : st.src = st'.src
  dst : st.dst = st'.dst
  buffer : st.buffer = st'.buffer
  copied : st.copied = st'.copied
  scan : R st.scan st'.scan

variable {R : Nat → σ → τ → Prop} {f : BufScan σ} {g : BufScan τ} {st : DdState σ} {st' : DdState τ}

theorem ddStep_simulates (simulates : ScanSimulates R f g) (room sz : Nat) (related : st.Related (R (room + 1)) st') :
    (ddStep (some f) sz st = none ∧ ddStep (some g) sz st' = none) ∨
      ∃ left next next', left < sz ∧ ddStep (some f) sz st = some (left, next) ∧
        ddStep (some g) sz st' = some (left, next') ∧ next.Related (R room) next' := by
  cases st with
  | mk src dst buffer copied scan =>
  cases st' with
  | mk src' dst' buffer' copied' scan' =>
  cases related with
  | mk sameSrc sameDst sameBuffer sameCopied held =>
  dsimp only at sameSrc sameDst sameBuffer sameCopied held
  subst sameSrc sameDst sameBuffer sameCopied
  have scanned (bytes : List Byte) := @simulates.scan room
    ((List.range (min ddMaxBufsz sz)).map (fillBuffer buffer bytes)) scan scan' (by simp) held
  cases src with
  | none =>
    obtain ⟨same, held'⟩ := scanned (List.replicate (min ddMaxBufsz sz) 0#8)
    simp only [ddStep]
    split
    · exact Or.inl ⟨rfl, rfl⟩
    · rename_i some
      rw [List.length_replicate] at some ⊢
      refine Or.inr ⟨_, _, _, by omega, rfl, rfl, ?_⟩
      constructor <;> simp [same, held']
  | some fd =>
    obtain ⟨same, held'⟩ := scanned (fd.read (min ddMaxBufsz sz)).1
    have enough : (fd.read (min ddMaxBufsz sz)).1.length ≤ sz := by
      rw [Fd.read, File.readAt_length]
      omega
    simp only [ddStep]
    split
    · exact Or.inl ⟨rfl, rfl⟩
    · rename_i some
      refine Or.inr ⟨_, _, _, by omega, rfl, rfl, ?_⟩
      constructor <;> simp [same, held']

theorem DdState.Related.fewer (simulates : ScanSimulates R f g) {left room : Nat} (le : left ≤ room)
    (related : st.Related (R room) st') : st.Related (R left) st' :=
  ⟨related.src, related.dst, related.buffer, related.copied, simulates.fewer le related.scan⟩

theorem ddLoop_simulates (simulates : ScanSimulates R f g) (fuel room sz : Nat)
    (related : st.Related (R (room + sz)) st') :
    (ddLoop (some f) fuel sz st).Related (R room) (ddLoop (some g) fuel sz st') := by
  induction fuel generalizing sz st st' with
  | zero => exact related.fewer simulates (Nat.le_add_right room sz)
  | succ fuel ih =>
    simp only [ddLoop]
    split
    · exact related.fewer simulates (Nat.le_add_right room sz)
    · have step := ddStep_simulates simulates (room + (sz - 1)) sz (related.fewer simulates (by omega))
      rcases step with ⟨stopped, stopped'⟩ | ⟨left, next, next', shorter, ran, ran', kept⟩
      · rw [stopped, stopped']
        exact related.fewer simulates (Nat.le_add_right room sz)
      · rw [ran, ran']
        exact ih left (kept.fewer simulates (by omega))

/-- A copy with either callback moves the same bytes, and keeps the relation. -/
theorem dd64_simulates (simulates : ScanSimulates R f g) (junk : Nat → Byte) (src dst : Option Fd)
    (offtSrc offtDst room sz : Nat) {s : σ} {t : τ} (held : R (room + sz) s t) :
    (dd64 junk src dst offtSrc offtDst sz (some f) s).Related (R room)
      (dd64 junk src dst offtSrc offtDst sz (some g) t) := by
  simp only [dd64]
  split
  · exact ⟨rfl, rfl, rfl, rfl, simulates.fewer (Nat.le_add_right room sz) held⟩
  · exact ddLoop_simulates simulates sz room sz ⟨rfl, rfl, rfl, rfl, held⟩

end Simulation

/-- A callback that feeds a hash context; `none` once the context has faulted. -/
def hashScan : BufScan (Option HashContext) := fun buf ctx =>
  (buf, ctx.bind fun ctx => (hashContextUpdate ctx buf).map Prod.snd)

/-- The bytes that the context stands for. -/
def streamScan : BufScan (List Byte) := fun buf stream => (buf, stream ++ buf)

/-- The context behind a stream, while there is room for this many full buffers of `dd64`. -/
def Hashed (room : Nat) (ctx : Option HashContext) (stream : List Byte) : Prop :=
  (∃ context, ctx = some context ∧ context.Took .sha1 stream) ∧ stream.length + room * ddMaxBufsz < 2 ^ 61

theorem hashContextFed_short {data : List Byte} (short : data.length < 2 ^ 32) : hashContextFed data = data := by
  rw [hashContextFed, Nat.mod_eq_of_lt short, List.take_length]

theorem Hashed.fed {room : Nat} {ctx : Option HashContext} {stream bytes : List Byte} (hashed : Hashed room ctx stream)
    {left : Nat} (short : bytes.length < 2 ^ 32) (fits : bytes.length + left * ddMaxBufsz ≤ room * ddMaxBufsz) :
    Hashed left (hashScan bytes ctx).2 (stream ++ bytes) := by
  obtain ⟨⟨context, rfl, took⟩, near⟩ := hashed
  obtain ⟨context', ran, took'⟩ := hashContextUpdate_took took bytes (by
    rw [hashContextFed_short short]
    show 8 * (stream.length + bytes.length) < 2 ^ (2 * 32)
    omega)
  rw [hashContextFed_short short] at took'
  constructor
  · exact ⟨context', by rw [hashScan, Option.bind_some, ran, Option.map_some], took'⟩
  · rw [List.length_append]
    omega

theorem hashScan_simulates : ScanSimulates Hashed hashScan streamScan where
  fewer := by
    intro room left ctx stream le hashed
    have scaled := Nat.mul_le_mul_right ddMaxBufsz le
    exact ⟨hashed.1, by have near := hashed.2; omega⟩
  scan := by
    intro room bytes ctx stream short hashed
    refine ⟨rfl, hashed.fed ?_ ?_⟩
    · unfold ddMaxBufsz at short
      omega
    · rw [Nat.succ_mul]
      omega

end ImgEditor
