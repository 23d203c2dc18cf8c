import ExchangeEngine.Io.CaptureErrors

/-!
The recording loop of `src/tools/ws_capture_main.cpp`, which writes one frame a line, and what
`parse_binance_depth_updates` makes of the file. A frame is what a read of the socket completes
with. However the recording ends, the file has every frame that was read.
-/

namespace ExchangeEngine

open Text DepthCapture

namespace DepthRecording

/-- What a round of the loop comes to. -/
inductive Round where
  | deadline
  | frame (data : List Char)
  | closed
  | failed (message : String)
  deriving DecidableEq, Repr

/-- The file, and how many frames were written to it. -/
structure Recording where
  out : List Char := []
  frames : Nat := 0
  deriving DecidableEq, Repr

/-- There is no result as long as the loop waits for a frame. -/
def capture : List Round → Recording → Option (Recording × Except String Unit)
  | [], _ => none
  | .deadline :: _, r => some (r, .ok ())
  | .closed :: _, r => some (r, .ok ())
  | .failed message :: _, r => some (r, .error ("read: " ++ message))
  | .frame data :: rounds, r => capture rounds ⟨r.out ++ data ++ ['\n'], r.frames + 1⟩

/-- The frames that are read before the recording ends. -/
def received : List Round → List (List Char)
  | .frame data :: rounds => data :: received rounds
  | _ => []

/-- A frame that makes one line of the file, and the same line. -/
structure OneLine (data : List Char) : Prop where
  newline : '\n' ∉ data
  carriageReturn : data.getLast? ≠ some '\r'
  visible : blank data = false

def recorded (frames : List (List Char)) : List Char := frames.flatMap fun data => data ++ ['\n']

theorem capture_out {rounds : List Round} {r r' : Recording} {result : Except String Unit}
    (h : capture rounds r = some (r', result)) :
    r'.out = r.out ++ recorded (received rounds) ∧
      r'.frames = r.frames + (received rounds).length := by
  induction rounds generalizing r with
  | nil => cases h
  | cons round rounds ih =>
    cases round with
    | frame data =>
      obtain ⟨hout, hframes⟩ := ih h
      constructor
      · rw [hout, received, recorded, recorded, List.flatMap_cons, List.append_assoc,
          List.append_assoc, List.append_assoc]
      · rw [hframes, received, List.length_cons, Nat.add_right_comm]
        rfl
    | _ =>
      obtain ⟨rfl, -⟩ := Prod.mk.inj (Option.some.inj h)
      exact ⟨(List.append_nil _).symm, rfl⟩

/-- The file has the lines of all frames, and an empty line at its end. -/
theorem lines_recorded (frames : List (List Char)) :
    lines (recorded frames) = frames.flatMap lines ++ [[]] := by
  induction frames with
  | nil => rfl
  | cons data frames ih =>
    rw [recorded, List.flatMap_cons, List.append_assoc, List.singleton_append, ← recorded,
      lines_append_newline, ih, List.flatMap_cons, List.append_assoc]

namespace OneLine

variable {data : List Char} (h : OneLine data)
include h

theorem lines_eq : lines data = [data] := lines_of_notMem h.newline

theorem chomp_eq : chomp data = data := if_neg h.carriageReturn

end OneLine

variable {U : Type} {parse : FrameParser U} {priceDecimals qtyDecimals : Int}
  {frames : List (List Char)}

section Written

variable (hframes : ∀ data ∈ frames, OneLine data)
include hframes

theorem lines_recorded_oneLine : lines (recorded frames) = frames ++ [[]] := by
  have hlines : frames.flatMap lines = frames.flatMap fun data => [data] := by
    apply List.flatMap_congr
    intro data hdata
    exact (hframes data hdata).lines_eq
  rw [lines_recorded, hlines, List.flatMap_singleton']

/-- Reading the file is reading the frames. -/
theorem returns_recorded : Returns parse (recorded frames) priceDecimals qtyDecimals
    (readLines parse priceDecimals qtyDecimals [] 0 frames) := by
  have hreturns := returns_readLines parse (recorded frames) priceDecimals qtyDecimals
  rwa [lines_recorded_oneLine hframes, readLines_empty_last] at hreturns

theorem frames_oneLine :
    (frames.map chomp).filter (fun line => !blank line) = frames := by
  have hchomp : frames.map chomp = frames.map id := by
    apply List.map_congr_left
    intro data hdata
    exact (hframes data hdata).chomp_eq
  rw [hchomp, List.map_id, List.filter_eq_self]
  intro data hdata
  rw [(hframes data hdata).visible]
  rfl

theorem rejection_oneLine {data : List Char} {cause : String} (hdata : data ∈ frames) :
    rejection parse priceDecimals qtyDecimals data = some cause ↔
      parse data priceDecimals qtyDecimals = .error cause := by
  have hone := hframes data hdata
  rw [rejection_eq_some, hone.chomp_eq]
  exact and_iff_right hone.visible

theorem returns_accepted {updates : List U}
    (hupdates : frames.map (parse · priceDecimals qtyDecimals) = updates.map .ok) :
    Returns parse (recorded frames) priceDecimals qtyDecimals (.ok updates) := by
  have hread : readLines parse priceDecimals qtyDecimals [] 0 frames = .ok updates := by
    apply readLines_eq_ok.mpr
    refine ⟨updates, rfl, ?_⟩
    rwa [frames_oneLine hframes]
  rw [← hread]
  exact returns_recorded hframes

omit hframes in
theorem returns_rejected {before after : List (List Char)} {data : List Char} {cause : String}
    (hframes : ∀ line ∈ before ++ data :: after, OneLine line)
    (hbefore : ∀ earlier ∈ before,
      ∃ update, parse earlier priceDecimals qtyDecimals = .ok update)
    (hcause : parse data priceDecimals qtyDecimals = .error cause) :
    Returns parse (recorded (before ++ data :: after)) priceDecimals qtyDecimals
      (.error (lineError (before.length + 1))) := by
  have hrejected : rejection parse priceDecimals qtyDecimals data = some cause :=
    (rejection_oneLine hframes (by simp)).mpr hcause
  have hearlier : ∀ earlier ∈ before,
      rejection parse priceDecimals qtyDecimals earlier = none := by
    intro earlier hmem
    obtain ⟨update, hupdate⟩ := hbefore earlier hmem
    by_contra hsome
    obtain ⟨reason, hreason⟩ := Option.ne_none_iff_exists'.mp hsome
    rw [rejection_oneLine hframes (List.mem_append_left _ hmem), hupdate] at hreason
    cases hreason
  rw [← Nat.zero_add before.length, ← readLines_rejected hrejected hearlier]
  exact returns_recorded hframes

end Written

/-- What the parser makes of a recording: the frames that were read, in order, or an error
with the number of the first frame that it rejects. -/
structure ReadBack (parse : FrameParser U) (rounds : List Round) (r : Recording)
    (priceDecimals qtyDecimals : Int) : Prop where
  count : r.frames = (received rounds).length
  accepted : ∀ updates,
    (received rounds).map (parse · priceDecimals qtyDecimals) = updates.map .ok →
      Returns parse r.out priceDecimals qtyDecimals (.ok updates)
  rejected : ∀ before data after cause, received rounds = before ++ data :: after →
    (∀ earlier ∈ before, ∃ update, parse earlier priceDecimals qtyDecimals = .ok update) →
    parse data priceDecimals qtyDecimals = .error cause →
      Returns parse r.out priceDecimals qtyDecimals (.error (lineError (before.length + 1)))

/-- However a recording ends, it reads back. -/
theorem capture_readBack {rounds : List Round} {r : Recording} {result : Except String Unit}
    (hcapture : capture rounds {} = some (r, result))
    (hframes : ∀ data ∈ received rounds, OneLine data) (parse : FrameParser U)
    (priceDecimals qtyDecimals : Int) : ReadBack parse rounds r priceDecimals qtyDecimals := by
  obtain ⟨hout, hcount⟩ := capture_out hcapture
  replace hout : r.out = recorded (received rounds) := hout
  constructor
  · rw [hcount, Nat.zero_add]
  · intro updates hupdates
    rw [hout]
    exact returns_accepted hframes hupdates
  · intro before data after cause hsplit hbefore hcause
    rw [hsplit] at hframes hout
    rw [hout]
    exact returns_rejected hframes hbefore hcause

/-- The second of two frames has no price, and then the connection is lost. -/
theorem capture_readBack_lost : ∃ r,
    capture [.frame unpriced, .frame mispriced, .failed "reset"] {} =
      some (r, .error "read: reset") ∧
    ReadBack priceErrors [.frame unpriced, .frame mispriced, .failed "reset"] r 2 2 := by
  refine ⟨_, rfl, capture_readBack rfl ?_ priceErrors 2 2⟩
  intro data hdata
  simp only [received, List.mem_cons, List.not_mem_nil, or_false] at hdata
  rcases hdata with rfl | rfl
  · exact ⟨by decide, by decide, by decide⟩
  · exact ⟨by decide, by decide, by decide⟩

end DepthRecording

end ExchangeEngine
