import EthereumRust.Network.Frames
import EthereumRust.Lib.History

/-!
# Two sessions over a connection

Both ends write and read frames, in any interleaving; the frames of each direction arrive in order.
`sent` and `received` are the payloads that were written to a channel and read from it so far.
-/

namespace EthereumRust.Network
open Rust Rust.Method RLPxSession List

structure Channel where
  frames : List Bytes
  sent : List Bytes
  received : List Bytes

structure Connection where
  near : RLPxSession
  far : RLPxSession
  toFar : Channel
  toNear : Channel

namespace Connection

def flip (self : Connection) : Connection := ⟨self.far, self.near, self.toNear, self.toFar⟩

def new (secrets secrets' : Secrets) : Connection :=
  ⟨.new secrets, .new secrets', ⟨[], [], []⟩, ⟨[], [], []⟩⟩

/-- The length of a payload fits in the header of its frame. -/
abbrev Payload := { data : Bytes // data.length < 2 ^ 24 }

inductive Step where
  | write (data : Payload)
  | read

section
variable [Aes256] [HmacSha256]

def performNear (self : Connection) : Step → Option Connection
  | .write data =>
    match writeFrame data.val self.near with
    | .ok frame near =>
      some { self with near, toFar :=
        { self.toFar with
          frames := self.toFar.frames ++ [frame]
          sent := self.toFar.sent ++ [data.val] } }
    | _ => none
  | .read =>
    match self.toNear.frames with
    | [] => none
    | frame :: frames =>
      match readFrame frame self.near with
      | .ok data near =>
        some { self with near, toNear :=
          { self.toNear with frames, received := self.toNear.received ++ [data] } }
      | _ => none

def perform (self : Connection) : Bool × Step → Option Connection
  | (true, step) => self.performNear step
  | (false, step) => (self.flip.performNear step).map flip

/-- The steps of both ends, in any order. -/
abbrev Interleaving := History.Run fun _ (self : Connection) step self' =>
  self.perform step = some self'

def written : Direction → List Bytes → List Bytes
  | _, [] => []
  | direction, data :: payloads =>
    direction.frame data :: written (direction.afterFrame data) payloads

/-- The frames on the way are those of the pending payloads, from where the reader is to where the
writer is. -/
structure InOrder (link : Connection) (pending : List Bytes) : Prop where
  sent : link.toFar.sent = link.toFar.received ++ pending
  small : ∀ data ∈ pending, data.length < 2 ^ 24
  frames : link.toFar.frames = written link.far.ingress pending
  egress : link.near.egress = pending.foldl Direction.afterFrame link.far.ingress

/-- What is on the way to the far end is read there as what it has not received yet. -/
def Delivers (self : Connection) : Prop :=
  ∃ pending far, self.toFar.sent = self.toFar.received ++ pending ∧
    readFrames self.toFar.frames self.far = .ok pending far

variable {s s' : Connection} {payloads pending pending' : List Bytes}

theorem written_append (direction : Direction) : written direction (payloads ++ [data]) =
    written direction payloads ++ [(payloads.foldl Direction.afterFrame direction).frame data] := by
  induction payloads generalizing direction with
  | nil => rfl
  | cons _ _ ih => exact congrArg (cons _) (ih _)

theorem InOrder.near {step : Step} (h : s.performNear step = some s')
    (hto : InOrder s pending) (hfrom : InOrder s.flip pending') :
    ∃ pending pending', InOrder s' pending ∧ InOrder s'.flip pending' := by
  cases step with
  | write data =>
    rw [performNear, writeFrame_eq] at h
    cases h
    refine ⟨pending ++ [data.val], pending', ⟨?_, ?_, ?_, ?_⟩,
      ⟨hfrom.sent, hfrom.small, hfrom.frames, hfrom.egress⟩⟩
    · rw [← append_assoc, ← hto.sent]
    · exact forall_mem_append.mpr ⟨hto.small, forall_mem_singleton.mpr data.property⟩
    · rw [written_append, ← hto.frames, ← hto.egress]
    · rw [foldl_append, ← hto.egress]
      rfl
  | read =>
    have hfrs : s.toNear.frames = written s.near.ingress pending' := hfrom.frames
    rw [performNear, hfrs] at h
    cases pending' with
    | nil => cases h
    | cons data pending' =>
      obtain ⟨hdata, hsm⟩ := forall_mem_cons.mp hfrom.small
      rw [written] at h
      dsimp only at h
      rw [readFrame_eq hdata] at h
      cases h
      exact ⟨pending, pending', ⟨hto.sent, hto.small, hto.frames, hto.egress⟩,
        ⟨hfrom.sent.trans (append_cons _ _ _), hsm, rfl, hfrom.egress⟩⟩

theorem InOrder.step {step : Bool × Step} (h : s.perform step = some s')
    (hto : InOrder s pending) (hfrom : InOrder s.flip pending') :
    ∃ pending pending', InOrder s' pending ∧ InOrder s'.flip pending' := by
  obtain ⟨side, step⟩ := step
  cases side with
  | true => exact hto.near h hfrom
  | false =>
    obtain ⟨flipped, hstep, rfl⟩ := Option.map_eq_some_iff.mp h
    obtain ⟨pending', pending, hfrom, hto⟩ := InOrder.near hstep hfrom hto
    exact ⟨pending, pending', hto, hfrom⟩

theorem readFrames_written (hsm : ∀ data ∈ pending, data.length < 2 ^ 24) :
    ∃ rd', readFrames (written rd.ingress pending) rd = .ok pending rd' := by
  induction pending generalizing rd with
  | nil => exact ⟨rd, rfl⟩
  | cons data pending ih =>
    obtain ⟨hdata, hsm⟩ := forall_mem_cons.mp hsm
    obtain ⟨rd', hread⟩ := @ih (rd.setIngress (rd.ingress.afterFrame data)) hsm
    refine ⟨rd', ?_⟩
    rw [written, readFrames, bind_of_ok (readFrame_eq hdata)]
    exact bind_of_ok hread

theorem InOrder.delivers (h : InOrder s pending) : Delivers s := by
  obtain ⟨far, hread⟩ := readFrames_written h.small
  exact ⟨pending, far, h.sent, h.frames ▸ hread⟩

/-- However the two ends take turns, each reads what the other one has written, in order. -/
theorem delivers_of_interleaving {near far : Secrets} (h : Interleaving (new near far) past s)
    (haes : near.aesSecret = far.aesSecret) (hto : near.egressMac = far.ingressMac)
    (hfrom : far.egressMac = near.ingressMac) : Delivers s ∧ Delivers s.flip := by
  obtain ⟨pending, pending', hto, hfrom⟩ : ∃ pending pending',
      InOrder s pending ∧ InOrder s.flip pending' := by
    refine h.induct (fun _ s => ∃ pending pending',
      InOrder s pending ∧ InOrder s.flip pending') ⟨[], [], ?_, ?_⟩ ?_
    · exact ⟨rfl, by simp, rfl, (paired_new haes hto).direction⟩
    · exact ⟨rfl, by simp, rfl, (paired_new haes.symm hfrom).direction⟩
    · rintro _ _ _ _ - ⟨pending, pending', hto, hfrom⟩ hstep
      exact hto.step hstep hfrom
  exact ⟨hto.delivers, hfrom.delivers⟩

end

def turns : List (Bool × Step) :=
  [(true, .write ⟨[1], by decide⟩), (false, .write ⟨[2, 3], by decide⟩), (false, .read)]

open RLPxSession.Sample RLPxHandshake.Sample in
theorem delivers_of_interleaving_sample : ∃ s,
    Interleaving (new secrets remoteSecrets) turns s ∧ s.toFar.received = [[1]] ∧
      Delivers s ∧ Delivers s.flip := by
  exact History.exists_of_replay (fun _ _ _ _ h => h) (by decide +kernel)
    fun s hrun hrec => ⟨hrun, hrec, delivers_of_interleaving hrun rfl rfl rfl⟩

end Connection
end EthereumRust.Network
