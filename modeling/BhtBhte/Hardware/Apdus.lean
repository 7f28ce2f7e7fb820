import BhtBhte.Hardware.Paths
import BhtBhte.Lib.Sessions

/-!
# The commands of a hardware wallet

Each request is sent to the device in commands (APDUs): four bytes that say what is asked for, the
length of the data in one byte, the data, and a final byte.  The wallet makes room for five bytes in
front and appends the length behind them, so a zero stands where the length should.  The answer is
read into 64 bytes.  Only a command without data is well formed, a public key in full is never
understood, and `keepsRequest_iff` says which requests keep what they are held to.
-/
namespace BhtBhte.Hardware
open BhtBhte.Lib

variable {σ : Type}

/-! ## The code -/

/-- A device with states in `σ`.  A read fills at most the buffer it is handed. -/
structure HIDDevice (σ : Type) where
  write : List UInt8 → σ → Except String ℕ × σ
  read : ℕ → UInt32 → σ → Except String (List UInt8) × σ
  length_read : ∀ {size timeoutMs s data}, (read size timeoutMs s).1 = .ok data →
    data.length ≤ size

/-- What a device says of itself, as far as it is read. -/
structure WalletInfo where
  hasScreen : Bool

/-- The wallet on top of a device. -/
structure HardwareWalletImpl (σ : Type) where
  info : WalletInfo
  device : Option (HIDDevice σ)

/-- A run of the wallet, with the byte strings it writes. -/
abbrev Exchange (σ α : Type) := Session (List UInt8) String σ α

/-- The components of a path, four bytes each, the high byte first. -/
def serializePath (path : HWWPath) : List UInt8 :=
  path.path.flatMap fun v : UInt32 =>
    [((v >>> 24) &&& 0xFF).toUInt8, ((v >>> 16) &&& 0xFF).toUInt8, ((v >>> 8) &&& 0xFF).toUInt8,
      (v &&& 0xFF).toUInt8]

/-- The bytes that `exchangeAPDU` writes. -/
def apdu (cla ins p1 p2 : UInt8) (data : List UInt8) : List UInt8 :=
  let apdu := ((((List.replicate 5 0).set 0 cla).set 1 ins).set 2 p1).set 3 p2
  let apdu := if data.length > 0 then apdu ++ [UInt8.ofNat data.length] ++ data else apdu
  apdu ++ [0]

/-- Send a command and read its answer into 64 bytes. -/
def exchangeAPDU (device : HIDDevice σ) (cla ins p1 p2 : UInt8) (data : List UInt8) :
    Exchange σ (List UInt8) where
  run s :=
    match device.write (apdu cla ins p1 p2 data) s with
    | (.error err, s) =>
        ⟨[apdu cla ins p1 p2 data], .error ("failed to write APDU: " ++ err), s⟩
    | (.ok _, s) =>
        match device.read 64 30000 s with
        | (.error err, s) =>
            ⟨[apdu cla ins p1 p2 data], .error ("failed to read APDU response: " ++ err), s⟩
        | (.ok response, s) => ⟨[apdu cla ins p1 p2 data], .ok response, s⟩

/-- A request of one command. -/
def command {α : Type} (w : HardwareWalletImpl σ) (ins : UInt8) (data : List UInt8)
    (understand : List UInt8 → Except String α) : Exchange σ α :=
  match w.device with
  | none => .fail "device not connected"
  | some device => do
      let response ← exchangeAPDU device 0xE0 ins 0x00 0x00 data
      .ofExcept (understand response)

def getFirmwareVersion (w : HardwareWalletImpl σ) : Exchange σ String :=
  command w 0x01 [] fun response =>
    if response.length < 4 then .error "invalid firmware response"
    else .ok (toString (response.getD 1 0) ++ "." ++ toString (response.getD 2 0) ++ "." ++
      toString (response.getD 3 0))

def getSerialNumber (w : HardwareWalletImpl σ) : Exchange σ String :=
  command w 0x02 [] fun response =>
    if response.length < 4 then .error "invalid serial response"
    else .ok (String.ofList (hexEncode (response.drop 4)))

/-- Ask for the public key at a path. -/
def getPublicKey (w : HardwareWalletImpl σ) (path : HWWPath) : Exchange σ (List UInt8) :=
  command w 0x40 (serializePath path) fun response =>
    if response.length < 65 then .error "invalid public key response"
    else .ok ((response.take 66).drop 1)

/-- The last bytes of the key, in reverse. -/
def hashPublicKey (pubKey : List UInt8) : List UInt8 :=
  (List.range 20).map fun i =>
    if i < pubKey.length then pubKey.getD (pubKey.length - 1 - i) 0 else 0

def getAddress (w : HardwareWalletImpl σ) (path : HWWPath) : Exchange σ String := do
  let pubKey ← getPublicKey w path
  return "0x" ++ String.ofList (hexEncode (hashPublicKey pubKey))

/-- The bytes of a transaction that go into one command. -/
def chunkSize : ℕ := 255

/-- The loop of `SignTransaction` and `SignMessage`, from byte `i` on. -/
def sendChunks (device : HIDDevice σ) (ins : UInt8) (data : List UInt8) (i : ℕ) :
    Exchange σ Unit :=
  if _ : i < data.length then do
    let stop := if i + chunkSize > data.length then data.length else i + chunkSize
    let chunk := (data.take stop).drop i
    let more : UInt8 := if stop < data.length then 1 else 0
    let _ ← exchangeAPDU device 0xE0 ins more 0x00 chunk
    sendChunks device ins data (i + chunkSize)
  else pure ()
termination_by data.length - i
decreasing_by
  rw [chunkSize]
  omega

/-- The common body of `SignTransaction` and `SignMessage`. -/
def sign (w : HardwareWalletImpl σ) (ins : UInt8) (data : List UInt8) :
    Exchange σ (List UInt8) :=
  match w.device with
  | none => .fail "device not connected"
  | some device => do
      sendChunks device ins data 0
      let response ← exchangeAPDU device 0xE0 ins 0x00 0x00 []
      .ofExcept (if response.length < 2 then .error "invalid signature response"
        else .ok (response.drop 1))

/-- Have a transaction signed, chunk by chunk. -/
def signTransaction (w : HardwareWalletImpl σ) (path : HWWPath) (txData : List UInt8) :
    Exchange σ (List UInt8) :=
  sign w 0x42 (serializePath path ++ txData)

def signMessage (w : HardwareWalletImpl σ) (path : HWWPath) (message : List UInt8) :
    Exchange σ (List UInt8) :=
  sign w 0x44 (serializePath path ++ message)

def displayAddress (w : HardwareWalletImpl σ) (path : HWWPath) (address : List UInt8) :
    Exchange σ Unit :=
  if w.device.isSome ∧ w.info.hasScreen = false then .fail "device does not have a screen"
  else command w 0x50 (serializePath path ++ address) fun _ => .ok ()

def wipeDevice (w : HardwareWalletImpl σ) : Exchange σ Unit := command w 0xFF [] fun _ => .ok ()

/-- Set the device up under a label. -/
def setupDevice (w : HardwareWalletImpl σ) (label passphrase : List UInt8) : Exchange σ Unit :=
  command w 0x60 (if passphrase ≠ [] then label ++ passphrase else label) fun _ => .ok ()

/-- Restore the device from a mnemonic. -/
def restoreDevice (w : HardwareWalletImpl σ) (mnemonic passphrase : List UInt8) :
    Exchange σ Unit :=
  command w 0x61 (if passphrase ≠ [] then mnemonic ++ passphrase else mnemonic) fun _ => .ok ()

/-! ## What a request is held to -/

/-- A command whose length fits in its byte. -/
structure Command where
  cla : UInt8
  ins : UInt8
  p1 : UInt8
  p2 : UInt8
  data : List UInt8
  final : UInt8
  fits : data.length < 256

/-- The bytes of a command, the length of its data in front of the data. -/
def Command.bytes (c : Command) : List UInt8 :=
  [c.cla, c.ins, c.p1, c.p2, UInt8.ofNat c.data.length] ++ c.data ++ [c.final]

/-- The bytes are those of a command. -/
def WellFormed (bytes : List UInt8) : Prop := ∃ c : Command, c.bytes = bytes

/-- The continuation flag is set on all commands but the last. -/
def Flagged (commands : List Command) : Prop :=
  (∀ c ∈ commands.dropLast, c.p1 = 1) ∧ ∀ c ∈ commands.getLast?, c.p1 = 0

/-- The byte strings are commands that carry the data, flagged where they have any. -/
def Carries (written : List (List UInt8)) (data : List UInt8) : Prop :=
  ∃ commands : List Command, commands.map Command.bytes = written ∧
    commands.flatMap Command.data = data ∧ Flagged (commands.filter (·.data ≠ []))

/-- The requests that a wallet can make. -/
inductive Call
  | getFirmwareVersion
  | getSerialNumber
  | getPublicKey (path : HWWPath)
  | getAddress (path : HWWPath)
  | signTransaction (path : HWWPath) (txData : List UInt8)
  | signMessage (path : HWWPath) (message : List UInt8)
  | displayAddress (path : HWWPath) (address : List UInt8)
  | wipeDevice
  | setupDevice (label passphrase : List UInt8)
  | restoreDevice (mnemonic passphrase : List UInt8)

/-- Everything a request writes to the device. -/
def Call.written (w : HardwareWalletImpl σ) (s : σ) : Call → List (List UInt8)
  | .getFirmwareVersion => ((Hardware.getFirmwareVersion w).run s).written
  | .getSerialNumber => ((Hardware.getSerialNumber w).run s).written
  | .getPublicKey path => ((Hardware.getPublicKey w path).run s).written
  | .getAddress path => ((Hardware.getAddress w path).run s).written
  | .signTransaction path txData => ((Hardware.signTransaction w path txData).run s).written
  | .signMessage path message => ((Hardware.signMessage w path message).run s).written
  | .displayAddress path address => ((Hardware.displayAddress w path address).run s).written
  | .wipeDevice => ((Hardware.wipeDevice w).run s).written
  | .setupDevice label passphrase => ((Hardware.setupDevice w label passphrase).run s).written
  | .restoreDevice mnemonic passphrase =>
      ((Hardware.restoreDevice w mnemonic passphrase).run s).written

/-- What a signature is asked for. -/
def Call.signed : Call → Option (List UInt8)
  | .signTransaction path txData => some (serializePath path ++ txData)
  | .signMessage path message => some (serializePath path ++ message)
  | _ => none

/-- Nothing written to the device and nothing read from it ends with an error. -/
def HIDDevice.NeverFails (device : HIDDevice σ) : Prop :=
  (∀ bytes s, ∃ n, (device.write bytes s).1 = .ok n) ∧
    ∀ size timeoutMs s, ∃ data, (device.read size timeoutMs s).1 = .ok data

/-- Whatever is written in the state `s`, the device answers with `answer`, as far as the buffer
goes. -/
def HIDDevice.Answers (device : HIDDevice σ) (s : σ) (answer : List UInt8) : Prop :=
  ∀ bytes, (∃ n, (device.write bytes s).1 = .ok n) ∧
    ∀ size timeoutMs, (device.read size timeoutMs (device.write bytes s).2).1 =
      .ok (answer.take size)

/-- Each command is well formed, a signature's commands carry what it is asked for, and a public
key in full is understood. -/
structure Keeps (w : HardwareWalletImpl σ) (s : σ) (c : Call) : Prop where
  wellFormed : ∀ bytes ∈ c.written w s, WellFormed bytes
  carries : ∀ device ∈ w.device, device.NeverFails → ∀ data ∈ c.signed,
    Carries (c.written w s) data
  understands : ∀ device ∈ w.device, ∀ path status key, c = .getPublicKey path →
    key.length = 65 → device.Answers s (status :: key) →
      ((getPublicKey w path).run s).result = .ok key

/-- The bytes that a request has for the device. -/
def Call.data (hasScreen : Bool) : Call → List UInt8
  | .getPublicKey path => serializePath path
  | .getAddress path => serializePath path
  | .signTransaction path txData => serializePath path ++ txData
  | .signMessage path message => serializePath path ++ message
  | .displayAddress path address => if hasScreen then serializePath path ++ address else []
  | .setupDevice label passphrase => label ++ passphrase
  | .restoreDevice mnemonic passphrase => mnemonic ++ passphrase
  | _ => []

/-! ## One command -/

section Apdu
variable {cla ins p1 p2 : UInt8} {data : List UInt8}

/-- The length stands in the sixth byte. -/
theorem apdu_of_ne_nil (h : data ≠ []) :
    apdu cla ins p1 p2 data = [cla, ins, p1, p2, 0, UInt8.ofNat data.length] ++ data ++ [0] := by
  rw [apdu, if_pos (List.length_pos_of_ne_nil h)]
  rfl

/-- **Only a command without data is well formed.** -/
theorem wellFormed_apdu_iff : WellFormed (apdu cla ins p1 p2 data) ↔ data = [] := by
  constructor
  · rintro ⟨c, hc⟩
    by_contra hne
    rw [apdu_of_ne_nil hne, Command.bytes] at hc
    have hlen := congrArg List.length hc
    simp only [List.cons_append, List.nil_append, List.cons.injEq] at hc
    have hzero : c.data.length = 0 := by
      have hmod := congrArg UInt8.toNat hc.2.2.2.2.1
      rwa [UInt8.toNat_ofNat_of_lt' c.fits] at hmod
    simp [hzero] at hlen
  · rintro rfl
    exact ⟨⟨cla, ins, p1, p2, [], 0, by decide⟩, rfl⟩

end Apdu

variable {device : HIDDevice σ} {s : σ}

theorem written_exchangeAPDU (cla ins p1 p2 : UInt8) (data : List UInt8) :
    ((exchangeAPDU device cla ins p1 p2 data).run s).written = [apdu cla ins p1 p2 data] := by
  simp only [exchangeAPDU]
  split
  · rfl
  · split <;> rfl

/-- The answer is cut to the buffer. -/
theorem length_exchangeAPDU {cla ins p1 p2 : UInt8} {data response : List UInt8}
    (h : ((exchangeAPDU device cla ins p1 p2 data).run s).result = .ok response) :
    response.length ≤ 64 := by
  simp only [exchangeAPDU] at h
  split at h
  · cases h
  · next s' _ =>
      split at h
      · cases h
      · next response' s'' hread =>
          cases h
          exact device.length_read (congrArg Prod.fst hread)

theorem HIDDevice.NeverFails.exchangeAPDU (h : device.NeverFails) (cla ins p1 p2 : UInt8)
    (data : List UInt8) (s : σ) :
    ∃ response,
      ((Hardware.exchangeAPDU device cla ins p1 p2 data).run s).result = .ok response := by
  obtain ⟨n, hn⟩ := h.1 (apdu cla ins p1 p2 data) s
  obtain ⟨response, hresponse⟩ := h.2 64 30000 (device.write (apdu cla ins p1 p2 data) s).2
  refine ⟨response, ?_⟩
  simp only [Hardware.exchangeAPDU]
  split
  · next err s' hwrite =>
      rw [hwrite] at hn
      cases hn
  · next n' s' hwrite =>
      rw [hwrite] at hresponse
      split
      · next err s'' hread =>
          rw [hread] at hresponse
          cases hresponse
      · next response' s'' hread =>
          rw [hread] at hresponse
          exact hresponse

variable {w : HardwareWalletImpl σ}

theorem written_command {α : Type} (hdevice : w.device = some device) (ins : UInt8)
    (data : List UInt8) (understand : List UInt8 → Except String α) :
    ((command w ins data understand).run s).written = [apdu 0xE0 ins 0x00 0x00 data] := by
  rw [command, hdevice]
  exact (Session.written_bind fun _ _ => rfl).trans (written_exchangeAPDU ..)

/-- **A public key in full is never understood.** -/
theorem getPublicKey_ne_ok (w : HardwareWalletImpl σ) (path : HWWPath) (s : σ) (key : List UInt8) :
    ((getPublicKey w path).run s).result ≠ .ok key := by
  rw [getPublicKey, command]
  cases hdevice : w.device with
  | none => simp [Session.fail]
  | some device =>
      cases hx : ((exchangeAPDU device 0xE0 0x40 0x00 0x00 (serializePath path)).run s).result with
      | error e => simp [Session.run_bind_of_error hx]
      | ok response =>
          have hshort : response.length < 65 := Nat.lt_succ_of_le (length_exchangeAPDU hx)
          simp [Session.run_bind_of_ok hx, hshort]

/-! ## The chunks of a signature -/

/-- Where a chunk ends. -/
def chunkEnd (data : List UInt8) (i : ℕ) : ℕ :=
  if i + chunkSize > data.length then data.length else i + chunkSize

/-- The piece of the data from an offset on. -/
def chunk (data : List UInt8) (i : ℕ) : List UInt8 := (data.take (chunkEnd data i)).drop i

theorem chunkEnd_lt_iff {data : List UInt8} {i : ℕ} :
    chunkEnd data i < data.length ↔ i + chunkSize < data.length := by
  rw [chunkEnd]
  split <;> omega

theorem chunk_append_drop (data : List UInt8) (i : ℕ) :
    chunk data i ++ data.drop (i + chunkSize) = data.drop i := by
  rw [chunk, chunkEnd]
  split
  · next h => rw [List.take_length, List.drop_eq_nil_of_le h.le, List.append_nil]
  · rw [List.drop_take, Nat.add_sub_cancel_left, ← List.drop_drop, List.take_append_drop]

theorem length_chunk_le (data : List UInt8) (i : ℕ) : (chunk data i).length ≤ chunkSize := by
  rw [chunk, List.length_drop, List.length_take, chunkEnd]
  split <;> omega

theorem chunk_ne_nil {data : List UInt8} {i : ℕ} (h : i < data.length) : chunk data i ≠ [] := by
  rw [← List.length_pos_iff, chunk, List.length_drop, List.length_take, chunkEnd, chunkSize]
  split <;> omega

/-- The command of a chunk. -/
def chunkCommand (ins : UInt8) (data : List UInt8) (i : ℕ) : Command where
  cla := 0xE0
  ins := ins
  p1 := if chunkEnd data i < data.length then 1 else 0
  p2 := 0x00
  data := chunk data i
  final := 0
  fits := Nat.lt_succ_of_le (length_chunk_le data i)

theorem sendChunks_of_lt {ins : UInt8} {data : List UInt8} {i : ℕ} (h : i < data.length) :
    sendChunks device ins data i =
      exchangeAPDU device 0xE0 ins (chunkCommand ins data i).p1 0x00 (chunk data i) >>= fun _ =>
      sendChunks device ins data (i + chunkSize) := by
  rw [sendChunks, dif_pos h]
  rfl

theorem sendChunks_of_le {ins : UInt8} {data : List UInt8} {i : ℕ} (h : data.length ≤ i) :
    sendChunks device ins data i = pure () := by
  rw [sendChunks, dif_neg (not_lt.mpr h)]

/-- What the wallet writes for a command with data. -/
def Command.stuffed (c : Command) : List UInt8 := apdu c.cla c.ins c.p1 c.p2 c.data

/-- The commands carry `data` in pieces, flagged. -/
structure Chunks (data : List UInt8) (commands : List Command) : Prop where
  carries : commands.flatMap Command.data = data
  flagged : Flagged commands
  ne_nil : ∀ c ∈ commands, c.data ≠ []

theorem Chunks.nil : Chunks [] [] := ⟨rfl, ⟨by simp, by simp⟩, by simp⟩

theorem Chunks.eq_nil_iff {data : List UInt8} {commands : List Command}
    (h : Chunks data commands) : commands = [] ↔ data = [] := by
  rw [← h.carries, List.flatMap_eq_nil_iff]
  constructor
  · rintro rfl
    simp
  · intro hall
    exact List.eq_nil_iff_forall_not_mem.mpr fun c hc => h.ne_nil c hc (hall c hc)

theorem Flagged.cons {c : Command} {commands : List Command} (h : Flagged commands)
    (hc : c.p1 = if commands = [] then 0 else 1) : Flagged (c :: commands) := by
  cases commands with
  | nil => exact ⟨by simp, by simpa using hc⟩
  | cons c' commands =>
      rw [if_neg (List.cons_ne_nil _ _)] at hc
      refine ⟨fun d hd => ?_, fun d hd => h.2 d (by simpa using hd)⟩
      rw [List.dropLast_cons_cons] at hd
      rcases List.mem_cons.mp hd with rfl | hd
      · exact hc
      · exact h.1 d hd

/-- One more chunk in front. -/
theorem Chunks.cons {data : List UInt8} {i : ℕ} {commands : List Command} (ins : UInt8)
    (hi : i < data.length) (h : Chunks (data.drop (i + chunkSize)) commands) :
    Chunks (data.drop i) (chunkCommand ins data i :: commands) := by
  refine ⟨?_, h.flagged.cons ?_, fun c hc => ?_⟩
  · rw [List.flatMap_cons, h.carries]
    exact chunk_append_drop data i
  · show (if chunkEnd data i < data.length then (1 : UInt8) else 0) = _
    have hlast : commands = [] ↔ data.length ≤ i + chunkSize :=
      h.eq_nil_iff.trans List.drop_eq_nil_iff
    by_cases hle : data.length ≤ i + chunkSize
    · rw [if_pos (hlast.mpr hle), if_neg fun h => absurd (chunkEnd_lt_iff.mp h) hle.not_gt]
    · rw [if_neg fun h => hle (hlast.mp h), if_pos (chunkEnd_lt_iff.mpr (not_le.mp hle))]
  · rcases List.mem_cons.mp hc with rfl | hc
    · exact chunk_ne_nil hi
    · exact h.ne_nil c hc

/-- **The chunks carry the data, flagged as they should be.** -/
theorem written_sendChunks (hdevice : device.NeverFails) (ins : UInt8) (data : List UInt8) (i : ℕ)
    (s : σ) :
    ∃ commands, ((sendChunks device ins data i).run s).written = commands.map Command.stuffed ∧
      ((sendChunks device ins data i).run s).result = .ok () ∧ Chunks (data.drop i) commands := by
  induction hn : data.length - i using Nat.strong_induction_on generalizing i s with
  | _ n ih =>
      by_cases hi : i < data.length
      · obtain ⟨response, hresponse⟩ := hdevice.exchangeAPDU 0xE0 ins
          (chunkCommand ins data i).p1 0x00 (chunk data i) s
        have hless : data.length - (i + chunkSize) < n := by
          rw [chunkSize]
          omega
        obtain ⟨commands, hwritten, hresult, hchunks⟩ := ih _ hless (i + chunkSize)
          ((exchangeAPDU device 0xE0 ins (chunkCommand ins data i).p1 0x00
            (chunk data i)).run s).state rfl
        refine ⟨chunkCommand ins data i :: commands, ?_, ?_, hchunks.cons ins hi⟩
        · rw [sendChunks_of_lt hi, Session.run_bind_of_ok hresponse, hwritten,
            written_exchangeAPDU]
          rfl
        · rw [sendChunks_of_lt hi, Session.run_bind_of_ok hresponse, hresult]
      · rw [sendChunks_of_le (not_lt.mp hi), List.drop_eq_nil_of_le (not_lt.mp hi)]
        exact ⟨[], rfl, rfl, .nil⟩

/-! ## Requests -/

theorem written_command_of_none {α : Type} (hdevice : w.device = none) (ins : UInt8)
    (data : List UInt8) (understand : List UInt8 → Except String α) :
    ((command w ins data understand).run s).written = [] := by
  rw [command, hdevice]
  rfl

theorem written_sign_of_none (hdevice : w.device = none) (ins : UInt8) (data : List UInt8) :
    ((sign w ins data).run s).written = [] := by
  rw [sign, hdevice]
  rfl

theorem sign_of_some (hdevice : w.device = some device) (ins : UInt8) (data : List UInt8) :
    sign w ins data = sendChunks device ins data 0 >>= fun _ =>
      exchangeAPDU device 0xE0 ins 0x00 0x00 [] >>= fun response =>
      .ofExcept (if response.length < 2 then .error "invalid signature response"
        else .ok (response.drop 1)) := by
  rw [sign, hdevice]

/-- Without data, a signature is asked for in one command. -/
theorem written_sign_nil (hdevice : w.device = some device) (ins : UInt8) :
    ((sign w ins []).run s).written = [apdu 0xE0 ins 0x00 0x00 []] := by
  have hpure : ((sendChunks device ins [] 0).run s).result = .ok () := by
    rw [sendChunks_of_le (Nat.zero_le 0)]
    rfl
  rw [sign_of_some hdevice, Session.run_bind_of_ok hpure, Session.written_bind fun _ _ => rfl,
    written_exchangeAPDU, sendChunks_of_le (Nat.zero_le 0)]
  rfl

/-- **A device that never fails is sent the data of a signature in flagged chunks, and then a
command without data.** -/
theorem written_sign (hdevice : w.device = some device) (hfails : device.NeverFails) (ins : UInt8)
    (data : List UInt8) (s : σ) :
    ∃ commands, ((sign w ins data).run s).written =
        commands.map Command.stuffed ++ [apdu 0xE0 ins 0x00 0x00 []] ∧ Chunks data commands := by
  obtain ⟨commands, hwritten, hresult, hchunks⟩ := written_sendChunks hfails ins data 0 s
  refine ⟨commands, ?_, hchunks⟩
  rw [sign_of_some hdevice, Session.run_bind_of_ok hresult, Session.written_bind fun _ _ => rfl,
    written_exchangeAPDU, hwritten]

/-- With data, the first chunk is written whatever the device does. -/
theorem exists_mem_written_sign (hdevice : w.device = some device) (ins : UInt8)
    {data : List UInt8} (hne : data ≠ []) :
    ∃ p1 chunk, chunk ≠ [] ∧ apdu 0xE0 ins p1 0x00 chunk ∈ ((sign w ins data).run s).written := by
  have hpos : 0 < data.length := List.length_pos_of_ne_nil hne
  refine ⟨(chunkCommand ins data 0).p1, chunk data 0, chunk_ne_nil hpos, ?_⟩
  rw [sign_of_some hdevice]
  apply Session.written_prefix_bind.subset
  rw [sendChunks_of_lt hpos]
  apply Session.written_prefix_bind.subset
  rw [written_exchangeAPDU]
  exact List.mem_singleton_self _

theorem append_unless_nil (l l' : List UInt8) : (if l' ≠ [] then l ++ l' else l) = l ++ l' := by
  split
  · rfl
  · next h => rw [not_not.mp h, List.append_nil]

/-- A request is one command, a signature, or nothing at all for want of a screen. -/
theorem Call.written_cases (w : HardwareWalletImpl σ) (s : σ) (c : Call) :
    (∃ ins, c.written w s =
      ((command w ins (c.data w.info.hasScreen) fun _ => .ok ()).run s).written) ∨
    (∃ ins, c.written w s = ((sign w ins (c.data w.info.hasScreen)).run s).written) ∨
    c.data w.info.hasScreen = [] ∧ c.written w s = [] := by
  have hsame : ∀ {α : Type} (ins : UInt8) (data : List UInt8)
      (understand : List UInt8 → Except String α), ((command w ins data understand).run s).written =
        ((command w ins data fun _ => Except.ok ()).run s).written := by
    intro α ins data understand
    cases hdevice : w.device with
    | none => rw [written_command_of_none hdevice, written_command_of_none hdevice]
    | some device => rw [written_command hdevice, written_command hdevice]
  cases c with
  | getFirmwareVersion => exact .inl ⟨0x01, hsame ..⟩
  | getSerialNumber => exact .inl ⟨0x02, hsame ..⟩
  | getPublicKey path => exact .inl ⟨0x40, hsame ..⟩
  | getAddress path => exact .inl ⟨0x40, (Session.written_bind fun _ _ => rfl).trans (hsame ..)⟩
  | signTransaction path txData => exact .inr (.inl ⟨0x42, rfl⟩)
  | signMessage path message => exact .inr (.inl ⟨0x44, rfl⟩)
  | displayAddress path address =>
      cases hscreen : w.info.hasScreen with
      | true =>
          refine .inl ⟨0x50, ?_⟩
          rw [Call.written, Hardware.displayAddress, if_neg (by simp [hscreen])]
          rfl
      | false =>
          refine .inr (.inr ⟨rfl, ?_⟩)
          rw [Call.written, Hardware.displayAddress]
          split
          · rfl
          · next h =>
              have hnone : w.device = none := by simpa [hscreen] using h
              exact written_command_of_none hnone ..
  | wipeDevice => exact .inl ⟨0xFF, rfl⟩
  | setupDevice label passphrase =>
      refine .inl ⟨0x60, ?_⟩
      rw [Call.written, Hardware.setupDevice, append_unless_nil]
      rfl
  | restoreDevice mnemonic passphrase =>
      refine .inl ⟨0x61, ?_⟩
      rw [Call.written, Hardware.restoreDevice, append_unless_nil]
      rfl

theorem Call.written_of_none (hdevice : w.device = none) (c : Call) : c.written w s = [] := by
  rcases c.written_cases w s with ⟨ins, h⟩ | ⟨ins, h⟩ | ⟨-, h⟩
  · rw [h, written_command_of_none hdevice]
  · rw [h, written_sign_of_none hdevice]
  · exact h

/-- A request without data is one command without data, or none. -/
theorem Call.written_of_data_nil (hdevice : w.device = some device) {c : Call}
    (hdata : c.data w.info.hasScreen = []) :
    (∃ ins, c.written w s = [apdu 0xE0 ins 0x00 0x00 []]) ∨ c.written w s = [] := by
  rcases c.written_cases w s with ⟨ins, h⟩ | ⟨ins, h⟩ | ⟨-, h⟩
  · exact .inl ⟨ins, by rw [h, hdata, written_command hdevice]⟩
  · exact .inl ⟨ins, by rw [h, hdata, written_sign_nil hdevice]⟩
  · exact .inr h

/-- A request with data writes a command with data. -/
theorem Call.exists_mem_written (hdevice : w.device = some device) {c : Call}
    (hdata : c.data w.info.hasScreen ≠ []) :
    ∃ ins p1 chunk, chunk ≠ [] ∧ apdu 0xE0 ins p1 0x00 chunk ∈ c.written w s := by
  rcases c.written_cases w s with ⟨ins, h⟩ | ⟨ins, h⟩ | ⟨hnil, -⟩
  · exact ⟨ins, 0x00, _, hdata, by rw [h, written_command hdevice]; exact List.mem_singleton_self _⟩
  · obtain ⟨p1, chunk, hne, hmem⟩ := exists_mem_written_sign (s := s) hdevice ins hdata
    exact ⟨ins, p1, chunk, hne, by rw [h]; exact hmem⟩
  · exact absurd hnil hdata

theorem Call.data_of_signed {c : Call} {data : List UInt8} (h : data ∈ c.signed)
    (hasScreen : Bool) : c.data hasScreen = data := by
  cases c <;> cases h <;> rfl

/-- **A request keeps what it is held to exactly when there is no device or nothing to send to it,
and it asks for no public key that the device answers in full.** -/
theorem keepsRequest_iff (w : HardwareWalletImpl σ) (s : σ) (c : Call) :
    Keeps w s c ↔ (w.device = none ∨ c.data w.info.hasScreen = []) ∧
      ¬ ∃ device ∈ w.device, ∃ path status key, c = .getPublicKey path ∧ key.length = 65 ∧
        device.Answers s (status :: key) := by
  constructor
  · intro h
    constructor
    · by_contra hno
      rw [not_or] at hno
      obtain ⟨device, hdevice⟩ := Option.ne_none_iff_exists'.mp hno.1
      obtain ⟨ins, p1, chunk, hne, hmem⟩ := Call.exists_mem_written (s := s) hdevice hno.2
      exact hne (wellFormed_apdu_iff.mp (h.wellFormed _ hmem))
    · rintro ⟨device, hdevice, path, status, key, rfl, hlen, hanswers⟩
      exact getPublicKey_ne_ok w path s key
        (h.understands device hdevice path status key rfl hlen hanswers)
  · rintro ⟨hnothing, hno⟩
    have hunderstands : ∀ device ∈ w.device, ∀ path status key, c = .getPublicKey path →
        key.length = 65 → device.Answers s (status :: key) →
          ((getPublicKey w path).run s).result = .ok key :=
      fun device hdevice path status key hc hlen hanswers =>
        absurd ⟨device, hdevice, path, status, key, hc, hlen, hanswers⟩ hno
    cases hdevice : w.device with
    | none =>
        refine ⟨fun bytes hbytes => ?_, fun device hmem => ?_, hunderstands⟩
        · rw [Call.written_of_none hdevice] at hbytes
          cases hbytes
        · rw [hdevice] at hmem
          cases hmem
    | some device =>
        have hdata : c.data w.info.hasScreen = [] :=
          hnothing.resolve_left (by rw [hdevice]; exact Option.some_ne_none device)
        have hwritten := Call.written_of_data_nil (s := s) hdevice hdata
        refine ⟨fun bytes hbytes => ?_, fun _ _ _ data hsigned => ?_, hunderstands⟩
        · rcases hwritten with ⟨ins, h⟩ | h
          · rw [h, List.mem_singleton] at hbytes
            rw [hbytes]
            exact wellFormed_apdu_iff.mpr rfl
          · rw [h] at hbytes
            cases hbytes
        · obtain rfl : data = [] := (Call.data_of_signed hsigned w.info.hasScreen).symm.trans hdata
          rcases hwritten with ⟨ins, h⟩ | h
          · exact ⟨[⟨0xE0, ins, 0x00, 0x00, [], 0, by decide⟩], by rw [h]; rfl, rfl,
              by simp [Flagged]⟩
          · exact ⟨[], h.symm, rfl, by simp [Flagged]⟩

/-! ## A device that answers everything alike -/

theorem length_take_of_eq_ok {answer data : List UInt8} {size : ℕ}
    (h : (Except.ok (answer.take size) : Except String (List UInt8)) = .ok data) :
    data.length ≤ size := by
  cases h
  exact List.length_take_le size answer

def answering (answer : List UInt8) : HIDDevice Unit where
  write bytes s := (.ok bytes.length, s)
  read size _ s := (.ok (answer.take size), s)
  length_read := length_take_of_eq_ok

theorem answering_answers (answer : List UInt8) : (answering answer).Answers () answer :=
  fun bytes => ⟨⟨bytes.length, rfl⟩, fun _ _ => rfl⟩

/-- A wallet whose device answers with a status byte and a public key. -/
def answeringKey : HardwareWalletImpl Unit where
  info := { hasScreen := true }
  device := some (answering (0 :: List.replicate 65 4))

/-- One byte is signed in a command that is not well formed, and a public key is not understood. -/
theorem not_keeps_answeringKey :
    ¬ Keeps answeringKey () (.signTransaction { path := [] } [1]) ∧
      ¬ Keeps answeringKey () (.getPublicKey { path := [] }) := by
  constructor
  · intro h
    obtain ⟨ins, p1, chunk, hne, hmem⟩ := Call.exists_mem_written (w := answeringKey) (s := ())
      (c := .signTransaction { path := [] } [1]) rfl (by simp [Call.data])
    exact hne (wellFormed_apdu_iff.mp (h.wellFormed _ hmem))
  · intro h
    exact getPublicKey_ne_ok answeringKey { path := [] } () (List.replicate 65 4)
      (h.understands _ rfl { path := [] } 0 _ rfl List.length_replicate
        (answering_answers (0 :: List.replicate 65 4)))

end BhtBhte.Hardware
