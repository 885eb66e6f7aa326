import Bytewright.Verification.Streamcodec.Redelivery

/-! # Streams that are reset

A sender may give a stream up and begin again, with the message ids it has used before. -/

namespace Bytewright.Streamcodec

open Bytewright.Common Bytewright.Library

/-! ### Generations -/

/-- What is sent on a stream between two resets, and what arrives of that. -/
structure Generation where
  msgs : List MessageSpec
  arrived : List FrameSpec

/-- The messages are of the stream and have ids of their own, and nothing but frames of them arrives. -/
structure Generation.Proper (g : Generation) (id : UInt16) : Prop where
  keys : (g.msgs.map MessageSpec.key).Nodup
  stream : ∀ m ∈ g.msgs, m.streamId = id
  short : ∀ m ∈ g.msgs, m.payload.length < 2 ^ 32
  sent : ∀ spec ∈ g.arrived, spec ∈ g.msgs.flatMap MessageSpec.fragments

/-- The frames of a stream over its generations, with a RESET behind each of them but the last. -/
inductive Succession (id : UInt16) : List Generation → List FrameSpec → Prop where
  | last (g : Generation) : Succession id [g] g.arrived
  | reset {gens : List Generation} {specs : List FrameSpec} (g : Generation) (r : FrameSpec)
      (htype : r.type = .kReset) (hid : r.streamId = id) (h : Succession id gens specs) :
      Succession id (g :: gens) (g.arrived ++ r :: specs)

theorem Framed.append_inv {specs specs' : List FrameSpec} {fs : List Frame} (h : Framed (specs ++ specs') fs) :
    ∃ gs gs', fs = gs ++ gs' ∧ Framed specs gs ∧ Framed specs' gs' := by
  induction specs generalizing fs with
  | nil => exact ⟨[], fs, rfl, .nil, h⟩
  | cons spec specs ih =>
      cases h with
      | cons hf h =>
          rcases ih h with ⟨gs, gs', rfl, hgs, hgs'⟩
          exact ⟨_ :: gs, gs', rfl, .cons hf hgs, hgs'⟩

/-- The frames of a generation carry data of the stream. -/
theorem Generation.Proper.frames {g : Generation} {id : UInt16} (h : g.Proper id) {fs : List Frame}
    (hfs : Framed g.arrived fs) : ∀ f ∈ fs, f.type = .kData ∧ f.streamId = id := by
  have hspecs : ∀ spec ∈ g.arrived, spec.type = .kData ∧ spec.streamId = id := by
    intro spec hspec
    rcases List.mem_flatMap.mp (h.sent spec hspec) with ⟨m, hm, hfragment⟩
    rw [m.fragments_eq] at hfragment
    rcases List.mem_map.mp hfragment with ⟨i, -, rfl⟩
    exact ⟨rfl, h.stream m hm⟩
  intro f hf
  rcases List.mem_iff_getElem.mp hf with ⟨i, hi, rfl⟩
  have hlength := hfs.length_eq
  rcases List.forall₂_iff_get.mp hfs |>.2 i (by omega) hi with ⟨pos, hframe⟩
  have hspec := hspecs (g.arrived.get ⟨i, by omega⟩) (List.get_mem ..)
  rw [List.get_eq_getElem] at hframe
  rw [hframe]
  exact hspec

/-! ### One generation after the other -/

namespace Partials

/-- The partials behind a sequence of calls. -/
def after (v : Partials) (cs : List Call) : Partials := cs.foldl (fun v c => (v.call c).2) v

theorem emitted_append (v : Partials) (cs ds : List Call) :
    v.emitted (cs ++ ds) = v.emitted cs ++ (v.after cs).emitted ds := by
  induction cs generalizing v with
  | nil => rfl
  | cons c cs ih =>
      rw [List.cons_append, emitted, emitted, ih, List.append_assoc]
      rfl

/-- Data of one stream leaves the partials of the others alone. -/
theorem after_acceptData {id : UInt16} {fs : List Frame} (hfs : ∀ f ∈ fs, f.streamId = id) (v : Partials)
    {k : Key} (hk : k.1 ≠ id) : v.after (fs.map .acceptData) k = v k := by
  induction fs generalizing v with
  | nil => rfl
  | cons f fs ih =>
      have hne : k ≠ f.key := by
        rintro rfl
        exact hk (hfs f (List.mem_cons_self ..))
      have hrest : ∀ f ∈ fs, f.streamId = id := fun f' hf' => hfs f' (List.mem_cons_of_mem f hf')
      exact (ih hrest (v.accept f).2).trans (accept_of_ne hne)

end Partials

/-- Behind a RESET the reassembler of a single stream is as new. -/
theorem reset_after_acceptData {id : UInt16} {fs : List Frame} (hfs : ∀ f ∈ fs, f.streamId = id) :
    (Partials.after (fun _ => none) (fs.map .acceptData)).reset id = fun _ => none := by
  funext k
  rw [Partials.reset]
  split
  · rfl
  · next hk => exact Partials.after_acceptData hfs _ hk

/-- The messages handed out on a stream are those of its generations, each for itself. -/
theorem Succession.emitted {id : UInt16} {gens : List Generation} {specs : List FrameSpec}
    (h : Succession id gens specs) (hproper : ∀ g ∈ gens, g.Proper id) {fs : List Frame}
    (hfs : Framed specs fs) :
    ∃ outs : List (List Message),
      Partials.emitted (fun _ => none) (fs.filterMap Frame.call?) = outs.flatten ∧
        List.Forall₂ (fun g out => Redelivers g.msgs g.arrived out) gens outs := by
  induction h generalizing fs with
  | last g =>
      have hg := hproper g (List.mem_singleton_self g)
      have hcalls := filterMap_call? fun f hf => (hg.frames hfs f hf).1
      refine ⟨[Partials.emitted (fun _ => none) (fs.map .acceptData)], ?_, .cons ?_ .nil⟩
      · rw [hcalls, List.flatten_singleton]
      · exact .of_emitted hg.keys hg.short hg.sent hfs rfl
  | @reset gens specs g r htype hid _ ih =>
      rcases List.forall_mem_cons.mp hproper with ⟨hg, hgens⟩
      rcases hfs.append_inv with ⟨gs, gs', rfl, hgs, hgs'⟩
      cases hgs' with
      | @cons _ f _ rest hf hrest =>
          rcases hf with ⟨pos, rfl⟩
          rcases ih hgens hrest with ⟨outs, hemitted, houts⟩
          have hdata := hg.frames hgs
          have hcalls := filterMap_call? fun f hf => (hdata f hf).1
          have hcall : (r.frame pos).call? = some (.resetStream id) := by
            simp [Frame.call?, FrameSpec.frame, htype, hid]
          refine ⟨Partials.emitted (fun _ => none) (gs.map .acceptData) :: outs, ?_, .cons ?_ houts⟩
          · rw [List.filterMap_append, hcalls, List.filterMap_cons_some hcall, Partials.emitted_append,
              List.flatten_cons, ← hemitted]
            refine congrArg (_ ++ ·) ?_
            change [] ++ (Partials.reset _ id).emitted _ = _
            rw [reset_after_acceptData fun f hf => (hdata f hf).2, List.nil_append]
          · exact .of_emitted hg.keys hg.short hg.sent hgs rfl

/-- Suppose the frames of a stream are generations of messages with RESETs between them, within each some
frames lost, some repeated and in any order, other streams in between, and every reset safe. Then decode
hands out on the stream, one generation after the other, what each would give alone: nothing that a
generation has left incomplete gets into the next, whatever ids they share. -/
theorem decode_generations {id : UInt16} {gens : List Generation} (hproper : ∀ g ∈ gens, g.Proper id)
    {specs : List FrameSpec} (hown : Succession id gens (specs.filter (·.streamId = id)))
    (hsafe : ({} : Reassembler).SafeRun ((framesAt 0 specs).filterMap Frame.call?)) :
    ∃ result, ∃ outs : List (List Message), decode (specs.foldl encodeFrame {}).buffer = .ok result ∧
      result.messages.filter (·.streamId = id) = outs.flatten ∧
        List.Forall₂ (fun g out => Redelivers g.msgs g.arrived out) gens outs := by
  have hframes : Framed (specs.filter (·.streamId = id)) ((framesAt 0 specs).filter (·.streamId = id)) := by
    refine List.rel_filter ?_ (framesAt_forall₂ 0 specs)
    rintro spec f ⟨pos, rfl⟩
    exact Iff.rfl
  rcases hown.emitted hproper hframes with ⟨outs, hemitted, houts⟩
  rcases DecodeState.run_refines (s := {}) .empty (framesAt 0 specs) hsafe with ⟨s, hrun, hmsgs, -, -⟩
  refine ⟨s.finish, outs, by rw [buffer_encodeFrames, decode_wire hrun], ?_, houts⟩
  change s.result.messages.filter _ = _
  rw [hmsgs, Reassembler.partials_empty, ← hemitted, DecodeState.calls_filter_stream]
  exact Partials.emitted_filter (DecodeState.selects_stream id) _ fun _ _ => rfl

/-- Message 7 of stream 1 loses its last fragment and is begun anew, with a message of stream 2 between
its fragments. -/
def restartedFrames : List FrameSpec :=
  let first : MessageSpec := { streamId := 1, msgId := 7, payload := [1, 2, 3], maxFragment := 2 }
  let second : MessageSpec := { streamId := 1, msgId := 7, payload := [4, 5, 6], maxFragment := 2 }
  let other : MessageSpec := { streamId := 2, msgId := 7, payload := [8, 9], maxFragment := 1 }
  first.fragments.take 1 ++ other.fragments.take 1 ++ { streamId := 1, type := .kReset } ::
    (second.fragments.drop 1 ++ other.fragments.drop 1 ++ second.fragments.take 1)

theorem decode_generations_restarted :
    let first : MessageSpec := { streamId := 1, msgId := 7, payload := [1, 2, 3], maxFragment := 2 }
    let second : MessageSpec := { streamId := 1, msgId := 7, payload := [4, 5, 6], maxFragment := 2 }
    let gens : List Generation := [⟨[first], first.fragments.take 1⟩, ⟨[second], second.fragments.reverse⟩]
    ∃ result, ∃ outs : List (List Message),
      decode (restartedFrames.foldl encodeFrame {}).buffer = .ok result ∧
        result.messages.filter (·.streamId = 1) = outs.flatten ∧
          List.Forall₂ (fun g out => Redelivers g.msgs g.arrived out) gens outs := by
  intro first second gens
  have hproper : ∀ g ∈ gens, g.Proper 1 := by
    refine List.forall_mem_cons.mpr ⟨⟨?_, ?_, ?_, ?_⟩, List.forall_mem_cons.mpr ⟨⟨?_, ?_, ?_, ?_⟩, nofun⟩⟩
    all_goals decide
  have hframes : restartedFrames.filter (·.streamId = 1) =
      first.fragments.take 1 ++ { streamId := 1, type := .kReset } :: second.fragments.reverse := by decide
  have hown : Succession 1 gens (restartedFrames.filter (·.streamId = 1)) := by
    rw [hframes]
    exact .reset ⟨[first], first.fragments.take 1⟩ _ rfl rfl (.last ⟨[second], second.fragments.reverse⟩)
  exact decode_generations hproper hown (by decide +kernel)

end Bytewright.Streamcodec
