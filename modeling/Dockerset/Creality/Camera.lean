import Dockerset.Data.LastWith
import Dockerset.Go.Utf8
import Dockerset.Logic.Runs

/-!
# The camera relay (`camera.go`)

Every viewer has a hub of its own: `cameraHandler` makes one with a single client,
starts the receiver on it and writes what comes out of the client's channel to the
websocket. At the start of a stream the receiver sends the codec, then the frames;
when a stream ends it starts over with the next one. It never waits: what the
channel has no room for is dropped, be it a frame or a codec.

`Configured` is what the viewer needs: that the codec it has got last is the one of
the frame it gets. `frames_configured` says when a run keeps to it.
-/

namespace Dockerset.Creality
open Go Logic Data

/-! ## The codec of a stream -/

def profileLevelId : Bytes := ascii "profile-level-id="

def defaultCodec : Bytes := ascii "avc1.42E01F"

/-- `codecStringFromFMTP(fmtp)`. The key is searched in the lower case form of the line and cut off
the line itself, which can be shorter. -/
def codecStringFromFMTP (lower : Char → Char) (toUpper : Bytes → Bytes) (fmtp : Bytes) :
    Except Panic Bytes :=
  match indexBytes (toLower lower fmtp) profileLevelId with
  | none => return defaultCodec
  | some i => do
    let value ← slice fmtp (i + profileLevelId.length) fmtp.length
    let value := value.takeWhile fun x => !(ascii "; \t\r\n").contains x
    if value.length ≠ 6 then return defaultCodec
    return ascii "avc1." ++ toUpper value

theorem codec_ne_nil {lower : Char → Char} {toUpper : Bytes → Bytes} {fmtp codec : Bytes}
    (h : codecStringFromFMTP lower toUpper fmtp = .ok codec) : codec ≠ [] := by
  have hdefault : defaultCodec ≠ [] := by decide
  unfold codecStringFromFMTP at h
  split at h
  · cases h
    exact hdefault
  · next i _ =>
    cases hslice : slice fmtp (i + profileLevelId.length) fmtp.length with
    | error e =>
      rw [hslice] at h
      cases h
    | ok value =>
      rw [hslice, ok_bind] at h
      dsimp only at h
      split at h
      · cases h
        exact hdefault
      · cases h
        have hprefix : ascii "avc1." ≠ [] := by decide
        exact List.append_ne_nil_of_left_ne_nil hprefix _

/-! ## The hub -/

structure CameraFrame where
  data : Bytes
  config : Bytes
deriving DecidableEq

/-- A message in the channel, with the codec of the stream it was sent in. The code has the message
only. -/
structure Sent where
  frame : CameraFrame
  stream : Option Bytes
deriving DecidableEq

/-- `make(chan cameraFrame, 1)`. -/
def chanCap : Nat := 1

/-- The hub with its client: the channel and what was written to the websocket. The codec of the
stream that the receiver is at is not in the code. -/
structure Hub where
  codec : Bytes
  stream : Option Bytes
  ch : List Sent
  delivered : List Sent
  length_le : ch.length ≤ chanCap
deriving DecidableEq

def newCameraHub : Hub := ⟨defaultCodec, none, [], [], Nat.zero_le _⟩

/-- The `select` with a `default` in which nothing is done. -/
def Hub.trySend (h : Hub) (frame : CameraFrame) : Hub :=
  if hroom : h.ch.length < chanCap then
    { h with
      ch := h.ch ++ [⟨frame, h.stream⟩]
      length_le := by
        rw [List.length_append]
        exact hroom }
  else h

def Hub.broadcast (h : Hub) (frame : Bytes) : Hub := h.trySend ⟨frame, []⟩

def Hub.broadcastConfig (h : Hub) (codec : Bytes) : Hub := h.trySend ⟨[], codec⟩

/-- `h.setCodec(codec)`, with which a stream starts. -/
def Hub.setCodec (h : Hub) (codec : Bytes) : Hub :=
  if codec ≠ [] then { h with codec := codec, stream := some codec }.broadcastConfig codec
  else { h with stream := some codec }

/-- The writer takes a message and writes it to the websocket. -/
def Hub.write (h : Hub) : Option Hub :=
  match hch : h.ch with
  | [] => none
  | m :: ch =>
    some { h with
      ch := ch
      delivered := h.delivered ++ [m]
      length_le := by
        have hle := h.length_le
        rw [hch, List.length_cons] at hle
        omega }

inductive Op where
  /-- `OnTrack`, for a track with this line. -/
  | openStream (fmtp : Bytes)
  | broadcast (frame : Bytes)
  | write
deriving DecidableEq

section

variable (lower : Char → Char) (toUpper : Bytes → Bytes)

inductive Step : Hub → Op → Hub → Prop
  | openStream {h : Hub} {fmtp codec : Bytes} (hcodec : codecStringFromFMTP lower toUpper fmtp = .ok codec) :
      Step h (.openStream fmtp) (h.setCodec codec)
  | broadcast {h : Hub} {frame : Bytes} : Step h (.broadcast frame) (h.broadcast frame)
  | write {h h' : Hub} (hwrite : h.write = some h') : Step h .write h'

end

def Hub.exec (lower : Char → Char) (toUpper : Bytes → Bytes) (h : Hub) : Op → Option Hub
  | .openStream fmtp =>
    match codecStringFromFMTP lower toUpper fmtp with
    | .ok codec => some (h.setCodec codec)
    | .error _ => none
  | .broadcast frame => some (h.broadcast frame)
  | .write => h.write

/-- Frames come in a stream. -/
def InStream (log : List Op) (op : Op) : Prop :=
  ∀ frame, op = .broadcast frame → ∃ fmtp, .openStream fmtp ∈ log

/-! ## What the viewer knows -/

/-- The codec of the last `config` message. -/
def lastConfig (ms : List Sent) : Option Bytes :=
  ms.foldl (fun last m => if m.frame.config = [] then last else some m.frame.config) none

/-- At every frame the last `config` message has the codec of the frame's stream. -/
def Configured (ms : List Sent) : Prop :=
  ∀ earlier m later, ms = earlier ++ m :: later → m.frame.config = [] →
    ∃ codec, m.stream = some codec ∧ lastConfig earlier = some codec

/-- What the channel has taken so far, in order. -/
def Hub.accepted (h : Hub) : List Sent := h.delivered ++ h.ch

/-- The start of a stream is not lost: there is room for its codec, or it is the codec that was sent
last. -/
def Announced (h : Hub) (codec : Bytes) : Prop :=
  h.ch.length < chanCap ∨ lastConfig h.accepted = some codec

variable {ms : List Sent} {m : Sent} {h h' : Hub} {log : List Op} {op : Op} {codec frame : Bytes}

theorem lastConfig_concat (ms : List Sent) (m : Sent) :
    lastConfig (ms ++ [m]) = if m.frame.config = [] then lastConfig ms else some m.frame.config := by
  simp [lastConfig]

theorem configured_nil : Configured [] := by
  intro earlier m later heq
  simp at heq

theorem configured_concat_iff :
    Configured (ms ++ [m]) ↔ Configured ms ∧
      (m.frame.config = [] → ∃ codec, m.stream = some codec ∧ lastConfig ms = some codec) := by
  constructor
  · intro hms
    refine ⟨?_, hms ms m [] rfl⟩
    intro earlier x later heq
    exact hms earlier x (later ++ [m]) (by simp [heq])
  · rintro ⟨hms, hm⟩ earlier x later heq
    rcases concat_eq_append_cons heq with ⟨-, hearlier, hx⟩ | ⟨rest, -, hms'⟩
    · rw [← hearlier, ← hx]
      exact hm
    · exact hms earlier x rest hms'

theorem Configured.of_append {ms' : List Sent} (hms : Configured (ms ++ ms')) : Configured ms := by
  intro earlier x later heq
  exact hms earlier x (later ++ ms') (by simp [heq])

theorem accepted_trySend (h : Hub) (f : CameraFrame) :
    (h.trySend f).accepted =
      if h.ch.length < chanCap then h.accepted ++ [⟨f, h.stream⟩] else h.accepted := by
  unfold Hub.trySend
  split
  · simp [Hub.accepted]
  · rfl

theorem stream_trySend (h : Hub) (f : CameraFrame) : (h.trySend f).stream = h.stream := by
  unfold Hub.trySend
  split <;> rfl

theorem stream_setCodec (h : Hub) (codec : Bytes) : (h.setCodec codec).stream = some codec := by
  unfold Hub.setCodec
  split
  · exact stream_trySend _ _
  · rfl

theorem write_eq_some (hwrite : h.write = some h') :
    h'.accepted = h.accepted ∧ h'.stream = h.stream := by
  unfold Hub.write at hwrite
  split at hwrite
  · cases hwrite
  · next m ch hch =>
    injection hwrite with hwrite
    rw [← hwrite]
    simp [Hub.accepted, hch]

theorem write_of_cons {ch : List Sent} (hch : h.ch = m :: ch) :
    ∃ h', h.write = some h' ∧ h'.ch = ch ∧ h'.delivered = h.delivered ++ [m] ∧
      h'.stream = h.stream := by
  unfold Hub.write
  split
  · next hnil => simp [hnil] at hch
  · next m' ch' hcons =>
    rw [hch] at hcons
    injection hcons with hm hch'
    exact ⟨_, rfl, hch'.symm, by rw [hm], rfl⟩

theorem broadcast_of_room (hroom : h.ch.length < chanCap) (frame : Bytes) :
    (h.broadcast frame).ch = h.ch ++ [⟨⟨frame, []⟩, h.stream⟩] ∧
      (h.broadcast frame).delivered = h.delivered := by
  rw [Hub.broadcast, Hub.trySend, dif_pos hroom]
  exact ⟨rfl, rfl⟩

theorem step_iff_exec {lower : Char → Char} {toUpper : Bytes → Bytes} :
    Step lower toUpper h op h' ↔ h.exec lower toUpper op = some h' := by
  constructor
  · intro hstep
    cases hstep with
    | openStream hcodec => simp [Hub.exec, hcodec]
    | broadcast => rfl
    | write hwrite => exact hwrite
  · intro hexec
    cases op with
    | openStream fmtp =>
      rw [Hub.exec] at hexec
      split at hexec
      · next codec hcodec =>
        cases hexec
        exact .openStream hcodec
      · cases hexec
    | broadcast frame =>
      cases hexec
      exact .broadcast
    | write => exact .write hexec

theorem runs_of_exec {lower : Char → Char} {toUpper : Bytes → Bytes} {fmtp : Bytes} {ops : List Op}
    {h₀ : Hub} (hexec : (.openStream fmtp :: ops).foldlM (Hub.exec lower toUpper) h₀ = some h) :
    Runs (Step lower toUpper) InStream h₀ (.openStream fmtp :: ops) h := by
  induction ops using List.reverseRecOn generalizing h with
  | nil =>
    have hstep : Hub.exec lower toUpper h₀ (.openStream fmtp) = some h := by simpa using hexec
    have hin : InStream [] (.openStream fmtp) := by
      intro frame hop
      cases hop
    exact Runs.step .start hin (step_iff_exec.2 hstep)
  | append_singleton ops op ih =>
    rw [← List.cons_append, List.foldlM_append] at hexec
    obtain ⟨h₁, hexec₁, hstep⟩ := Option.bind_eq_some_iff.1 hexec
    rw [← List.cons_append]
    refine Runs.step (ih hexec₁) ?_ (step_iff_exec.2 (by simpa using hstep))
    intro frame _
    exact ⟨fmtp, List.mem_cons_self ..⟩

/-! ## Runs in which every codec is announced -/

/-- What the channel has taken is in order, and it has taken the codec of the stream last. -/
structure InOrder (h : Hub) : Prop where
  configured : Configured h.accepted
  current : ∀ codec, h.stream = some codec → lastConfig h.accepted = some codec

theorem InOrder.delivered (hh : InOrder h) : Configured h.delivered := hh.configured.of_append

theorem inOrder_new : InOrder newCameraHub where
  configured := configured_nil
  current codec hcodec := by cases hcodec

theorem InOrder.write (hh : InOrder h) (hwrite : h.write = some h') : InOrder h' := by
  obtain ⟨haccepted, hstream⟩ := write_eq_some hwrite
  constructor
  · rw [haccepted]
    exact hh.configured
  · rw [haccepted, hstream]
    exact hh.current

theorem InOrder.broadcast (hh : InOrder h) (hstream : h.stream = some codec) (frame : Bytes) :
    InOrder (h.broadcast frame) := by
  have hlast := hh.current codec hstream
  constructor
  · rw [Hub.broadcast, accepted_trySend]
    split
    · rw [configured_concat_iff]
      exact ⟨hh.configured, fun _ => ⟨codec, hstream, hlast⟩⟩
    · exact hh.configured
  · intro codec' hcodec'
    rw [Hub.broadcast, stream_trySend] at hcodec'
    rw [Hub.broadcast, accepted_trySend]
    split
    · rw [lastConfig_concat, if_pos rfl]
      exact hh.current codec' hcodec'
    · exact hh.current codec' hcodec'

theorem InOrder.setCodec (hh : InOrder h) (hcodec : codec ≠ []) (hannounced : Announced h codec) :
    InOrder (h.setCodec codec) := by
  have haccepted : (h.setCodec codec).accepted =
      if h.ch.length < chanCap then h.accepted ++ [⟨⟨[], codec⟩, some codec⟩] else h.accepted := by
    rw [Hub.setCodec, if_pos hcodec, Hub.broadcastConfig, accepted_trySend]
    rfl
  constructor
  · rw [haccepted]
    split
    · rw [configured_concat_iff]
      exact ⟨hh.configured, fun hnone => absurd hnone hcodec⟩
    · exact hh.configured
  · intro codec' hcodec'
    rw [stream_setCodec] at hcodec'
    injection hcodec' with hcodec'
    rw [← hcodec', haccepted]
    split
    · rw [lastConfig_concat]
      exact if_neg hcodec
    · next hroom => exact hannounced.resolve_left hroom

section

variable {lower : Char → Char} {toUpper : Bytes → Bytes} {fmtp : Bytes}

/-- A step of a run in which every codec is announced. -/
def AnnouncedStep (lower : Char → Char) (toUpper : Bytes → Bytes) (h : Hub) (op : Op) (h' : Hub) :
    Prop :=
  Step lower toUpper h op h' ∧ ∀ fmtp codec, op = .openStream fmtp →
    codecStringFromFMTP lower toUpper fmtp = .ok codec → Announced h codec

theorem InOrder.step (hh : InOrder h) (hstream : (∃ fmtp, .openStream fmtp ∈ log) → h.stream.isSome)
    (hin : InStream log op) (hstep : AnnouncedStep lower toUpper h op h') :
    InOrder h' ∧ ((∃ fmtp, .openStream fmtp ∈ log ++ [op]) → h'.stream.isSome) := by
  obtain ⟨hstep, hannounced⟩ := hstep
  cases hstep with
  | openStream hcodec =>
    refine ⟨hh.setCodec (codec_ne_nil hcodec) (hannounced _ _ rfl hcodec), ?_⟩
    intro _
    rw [stream_setCodec]
    rfl
  | broadcast =>
    have hsome := hstream (hin _ rfl)
    obtain ⟨codec, hcodec⟩ := Option.isSome_iff_exists.1 hsome
    refine ⟨hh.broadcast hcodec _, ?_⟩
    intro _
    rw [Hub.broadcast, stream_trySend]
    exact hsome
  | write hwrite =>
    refine ⟨hh.write hwrite, ?_⟩
    rintro ⟨fmtp, hmem⟩
    rw [(write_eq_some hwrite).2]
    exact hstream ⟨fmtp, by simpa using hmem⟩

theorem inOrder_run (hrun : Runs (AnnouncedStep lower toUpper) InStream newCameraHub log h) :
    InOrder h ∧ ((∃ fmtp, .openStream fmtp ∈ log) → h.stream.isSome) := by
  apply hrun.inv fun log h => InOrder h ∧ ((∃ fmtp, .openStream fmtp ∈ log) → h.stream.isSome)
  · refine ⟨inOrder_new, ?_⟩
    rintro ⟨fmtp, hmem⟩
    cases hmem
  · rintro log h op h' ⟨hh, hstream⟩ hin hstep
    exact hh.step hstream hin hstep

/-- No other stream is opened. -/
def SameStream (_log : List Op) (op : Op) : Prop := ∀ fmtp, op ≠ .openStream fmtp

/-- A stream whose codec is announced stays in order until the next one. -/
theorem InOrder.stream_run (hh : InOrder h) (hstream : h.stream = some codec)
    (hrun : Runs (Step lower toUpper) SameStream h log h') : InOrder h' := by
  have hinv : InOrder h' ∧ h'.stream = some codec := by
    apply hrun.inv fun _ h => InOrder h ∧ h.stream = some codec
    · exact ⟨hh, hstream⟩
    · rintro log h op h' ⟨hh, hstream⟩ hsame hstep
      cases hstep with
      | openStream hcodec => exact absurd rfl (hsame _)
      | broadcast => exact ⟨hh.broadcast hstream _, (stream_trySend _ _).trans hstream⟩
      | write hwrite => exact ⟨hh.write hwrite, (write_eq_some hwrite).2.trans hstream⟩
  exact hinv.1

/-- A codec for which there is no room: a frame of its stream can follow what is in the channel. -/
theorem lost_run (lower : Char → Char) (toUpper : Bytes → Bytes) (hfull : ¬ h.ch.length < chanCap)
    (hcodec : codec ≠ []) :
    ∃ ops h', Runs (Step lower toUpper) SameStream (h.setCodec codec) ops h' ∧
      h'.delivered = h.accepted ++ [⟨⟨[], []⟩, some codec⟩] := by
  have hle := h.length_le
  have hone : h.ch.length = 1 := by
    unfold chanCap at hle hfull
    omega
  obtain ⟨m, hm⟩ := List.length_eq_one_iff.1 hone
  have hset : h.setCodec codec = { h with codec := codec, stream := some codec } := by
    rw [Hub.setCodec, if_pos hcodec]
    exact dif_neg hfull
  -- The writer takes what is in the channel, a frame comes in, and the writer takes the frame.
  obtain ⟨h₁, hwrite₁, hch₁, hdelivered₁, hstream₁⟩ : ∃ h₁, (h.setCodec codec).write = some h₁ ∧
      h₁.ch = [] ∧ h₁.delivered = h.accepted ∧ h₁.stream = some codec := by
    have haccepted : h.accepted = h.delivered ++ [m] := by rw [Hub.accepted, hm]
    rw [hset, haccepted]
    exact write_of_cons hm
  have hroom : h₁.ch.length < chanCap := by
    rw [hch₁]
    exact Nat.zero_lt_one
  obtain ⟨hch₂, hdelivered₂⟩ := broadcast_of_room hroom []
  rw [hch₁, hstream₁] at hch₂
  obtain ⟨h₃, hwrite₃, -, hdelivered₃, -⟩ := write_of_cons hch₂
  refine ⟨[.write, .broadcast [], .write], h₃, ?_, ?_⟩
  · have hrun₁ := Runs.step (.start : Runs (Step lower toUpper) SameStream (h.setCodec codec) [] _)
      (by simp [SameStream]) (.write hwrite₁)
    have hrun₂ := Runs.step hrun₁ (by simp [SameStream])
      (.broadcast : Step lower toUpper h₁ (.broadcast []) (h₁.broadcast []))
    exact Runs.step hrun₂ (by simp [SameStream]) (.write hwrite₃)
  · rw [hdelivered₃, hdelivered₂, hdelivered₁]

/-- If every stream starts with room in the channel for its codec, or with the codec that was sent
last, the viewer has the codec of every frame. A stream that starts otherwise can break this. -/
theorem frames_configured (lower : Char → Char) (toUpper : Bytes → Bytes) (log : List Op) (h : Hub)
    (hrun : Runs (AnnouncedStep lower toUpper) InStream newCameraHub log h) :
    Configured h.delivered ∧
    ∀ fmtp codec, codecStringFromFMTP lower toUpper fmtp = .ok codec →
      (Announced h codec ↔
        ∀ ops h', Runs (Step lower toUpper) SameStream (h.setCodec codec) ops h' →
          Configured h'.delivered) := by
  have hh := (inOrder_run hrun).1
  refine ⟨hh.delivered, ?_⟩
  intro fmtp codec hcodec
  have hne := codec_ne_nil hcodec
  constructor
  · intro hannounced ops h' hrun'
    exact ((hh.setCodec hne hannounced).stream_run (stream_setCodec h codec) hrun').delivered
  · intro hall
    by_cases hroom : h.ch.length < chanCap
    · exact .inl hroom
    · obtain ⟨ops, h', hrun', hdelivered⟩ := lost_run lower toUpper hroom hne
      have hlast := hall ops h' hrun'
      rw [hdelivered, configured_concat_iff] at hlast
      obtain ⟨codec', heq, hlast⟩ := hlast.2 rfl
      exact .inr (hlast.trans heq.symm)

theorem frames_configured_one_frame :
    ∃ log h, Runs (AnnouncedStep id id) InStream newCameraHub log h ∧ h.delivered.length = 2 ∧
      Configured h.delivered := by
  have hch₁ : (newCameraHub.setCodec defaultCodec).ch =
      [⟨⟨[], defaultCodec⟩, some defaultCodec⟩] := by decide +kernel
  obtain ⟨h₂, hwrite₂, hch₂, hdelivered₂, -⟩ := write_of_cons hch₁
  have hroom : h₂.ch.length < chanCap := by
    rw [hch₂]
    exact Nat.zero_lt_one
  obtain ⟨hch₃, hdelivered₃⟩ := broadcast_of_room hroom [1]
  rw [hch₂] at hch₃
  obtain ⟨h₄, hwrite₄, -, hdelivered₄, -⟩ := write_of_cons hch₃
  have hopen : AnnouncedStep id id newCameraHub (.openStream []) (newCameraHub.setCodec defaultCodec) := by
    refine ⟨.openStream (by decide +kernel), ?_⟩
    intro fmtp codec _ _
    exact .inl (by decide)
  have hrun₁ : Runs (AnnouncedStep id id) InStream newCameraHub [.openStream []] _ :=
    Runs.step .start (by simp [InStream]) hopen
  have hrun₂ : Runs (AnnouncedStep id id) InStream newCameraHub [.openStream [], .write] _ :=
    Runs.step hrun₁ (by simp [InStream]) ⟨.write hwrite₂, by simp⟩
  have hrun₃ : Runs (AnnouncedStep id id) InStream newCameraHub
      [.openStream [], .write, .broadcast [1]] _ :=
    Runs.step hrun₂ (by simp [InStream]) ⟨.broadcast, by simp⟩
  have hrun₄ : Runs (AnnouncedStep id id) InStream newCameraHub
      [.openStream [], .write, .broadcast [1], .write] _ :=
    Runs.step hrun₃ (by simp [InStream]) ⟨.write hwrite₄, by simp⟩
  refine ⟨_, _, hrun₄, ?_, (frames_configured id id _ _ hrun₄).1⟩
  have hdelivered₁ : (newCameraHub.setCodec defaultCodec).delivered = [] := by decide +kernel
  rw [hdelivered₄, hdelivered₃, hdelivered₂, hdelivered₁]
  rfl

/-- Two streams with different codecs: the second one starts while a frame is in the channel. -/
def twoStreams : List Op :=
  [.openStream (ascii "profile-level-id=420010"), .write, .broadcast [1],
    .openStream (ascii "profile-level-id=640028"), .write, .broadcast [2], .write]

theorem second_codec_lost :
    ∃ h, Runs (Step id id) InStream newCameraHub twoStreams h ∧ ¬ Configured h.delivered := by
  have hdelivered : (twoStreams.foldlM (Hub.exec id id) newCameraHub).map Hub.delivered =
      some [⟨⟨[], ascii "avc1.420010"⟩, some (ascii "avc1.420010")⟩,
        ⟨⟨[1], []⟩, some (ascii "avc1.420010")⟩, ⟨⟨[2], []⟩, some (ascii "avc1.640028")⟩] := by
    decide +kernel
  obtain ⟨h, hexec, hlist⟩ := Option.map_eq_some_iff.1 hdelivered
  refine ⟨h, runs_of_exec hexec, ?_⟩
  rw [hlist]
  intro hconfigured
  obtain ⟨codec, hstream, hlast⟩ := hconfigured [_, _] _ [] rfl rfl
  rw [← hstream] at hlast
  exact absurd hlast (by decide +kernel)

end

end Dockerset.Creality
