/-!
# Letter case

Case conversion maps each character on its own, by the one-to-one mappings of the character
database; a character without a mapping stays. Mappings that hold for a run of equally spaced
characters with one common offset are stored as one entry.
-/

namespace QueryFusion.Text

/-- A run of characters `first, first + step, …, last` that all move by `offset`. -/
structure CaseRun where
  first : Nat
  last : Nat
  step : Nat
  /-- What is added to a member's code point. -/
  offset : Int

def CaseRun.contains (run : CaseRun) (code : Nat) : Bool :=
  run.first ≤ code && code ≤ run.last && (code - run.first) % run.step == 0

/-- A character that moves on its own. -/
def CaseRun.single (entry : Nat × Int) : CaseRun := ⟨entry.1, entry.1, 1, entry.2⟩

/-- The first and the last capital of the runs in which each is followed by its small letter. -/
def alternatingCapitals : List (Nat × Nat) := [
  (256, 302), (306, 310), (313, 327), (330, 374), (377, 381), (386, 388), (391, 391), (395, 395),
  (401, 401), (408, 408), (416, 420), (423, 423), (428, 428), (431, 431), (435, 437), (440, 440),
  (444, 444), (453, 453), (456, 456), (459, 475), (478, 494), (498, 500), (504, 542), (546, 562),
  (571, 571), (577, 577), (582, 590), (880, 882), (886, 886), (984, 1006), (1015, 1015),
  (1018, 1018), (1120, 1152), (1162, 1214), (1217, 1229), (1232, 1326), (7680, 7828), (7840, 7934),
  (8579, 8579), (11360, 11360), (11367, 11371), (11378, 11378), (11381, 11381), (11392, 11490),
  (11499, 11501), (11506, 11506), (42560, 42604), (42624, 42650), (42786, 42798), (42802, 42862),
  (42873, 42875), (42878, 42886), (42891, 42891), (42896, 42898), (42902, 42920), (42932, 42946),
  (42951, 42953), (42960, 42960), (42966, 42968), (42997, 42997)]

/-- The runs of neighbouring capitals with their distance to the small letter. -/
def shiftedCapitals : List (Nat × Nat × Int) := [
  (65, 90, 32), (192, 214, 32), (216, 222, 32), (393, 394, 205), (433, 434, 217), (904, 906, 37),
  (910, 911, 63), (913, 929, 32), (931, 939, 32), (1021, 1023, -130), (1024, 1039, 80),
  (1040, 1071, 32), (1329, 1366, 48), (4256, 4293, 7264), (5024, 5103, 38864), (5104, 5109, 8),
  (7312, 7354, -3008), (7357, 7359, -3008), (7944, 7951, -8), (7960, 7965, -8), (7976, 7983, -8),
  (7992, 7999, -8), (8008, 8013, -8), (8040, 8047, -8), (8072, 8079, -8), (8088, 8095, -8),
  (8104, 8111, -8), (8120, 8121, -8), (8122, 8123, -74), (8136, 8139, -86), (8152, 8153, -8),
  (8154, 8155, -100), (8168, 8169, -8), (8170, 8171, -112), (8184, 8185, -128), (8186, 8187, -126),
  (8544, 8559, 16), (9398, 9423, 26), (11264, 11311, 48), (11390, 11391, -10815),
  (65313, 65338, 32), (66560, 66599, 40), (66736, 66771, 40), (66928, 66938, 39),
  (66940, 66954, 39), (66956, 66962, 39), (66964, 66965, 39), (68736, 68786, 64),
  (71840, 71871, 32), (93760, 93791, 32), (125184, 125217, 34)]

/-- The other capitals with their distance to the small letter. -/
def singleCapitals : List (Nat × Int) := [
  (304, -199), (376, -121), (385, 210), (390, 206), (398, 79), (399, 202), (400, 203), (403, 205),
  (404, 207), (406, 211), (407, 209), (412, 211), (413, 213), (415, 214), (422, 218), (425, 218),
  (430, 218), (439, 219), (452, 2), (455, 2), (458, 2), (497, 2), (502, -97), (503, -56),
  (544, -130), (570, 10795), (573, -163), (574, 10792), (579, -195), (580, 69), (581, 71),
  (895, 116), (902, 38), (908, 64), (975, 8), (1012, -60), (1017, -7), (1216, 15), (4295, 7264),
  (4301, 7264), (7838, -7615), (8025, -8), (8027, -8), (8029, -8), (8031, -8), (8124, -9),
  (8140, -9), (8172, -7), (8188, -9), (8486, -7517), (8490, -8383), (8491, -8262), (8498, 28),
  (11362, -10743), (11363, -3814), (11364, -10727), (11373, -10780), (11374, -10749),
  (11375, -10783), (11376, -10782), (42877, -35332), (42893, -42280), (42922, -42308),
  (42923, -42319), (42924, -42315), (42925, -42305), (42926, -42308), (42928, -42258),
  (42929, -42282), (42930, -42261), (42931, 928), (42948, -48), (42949, -42307), (42950, -35384)]

/-- The runs of capitals with their distance to the small letter. -/
def lowerRuns : List CaseRun :=
  (shiftedCapitals.map fun (first, last, offset) => ⟨first, last, 1, offset⟩) ++
    singleCapitals.map .single ++
    alternatingCapitals.map fun (first, last) => ⟨first, last, 2, 1⟩

/-- The small letters of a run of capitals, which lead back to them. -/
def CaseRun.mirror (run : CaseRun) : CaseRun where
  first := Int.toNat (run.first + run.offset)
  last := Int.toNat (run.last + run.offset)
  step := run.step
  offset := -run.offset

/-- The small letters whose capital has another small letter or none. -/
def oneWayLetters : List (Nat × Int) := [
  (181, 743), (223, 0), (305, -232), (383, -300), (453, -1), (456, -1), (459, -1), (498, -1),
  (837, 84), (962, -31), (976, -62), (977, -57), (981, -47), (982, -54), (1008, -86), (1009, -80),
  (1013, -96), (7296, -6254), (7297, -6253), (7298, -6244), (7299, -6242), (7300, -6242),
  (7301, -6243), (7302, -6236), (7303, -6181), (7304, 35266), (7835, -59), (8126, -7205)]

/-- The runs of small letters with their distance to the capital. -/
def upperRuns : List CaseRun := oneWayLetters.map .single ++ lowerRuns.map .mirror

def mapCase (runs : List CaseRun) (c : Char) : Char :=
  match runs.find? (·.contains c.toNat) with
  | some run => Char.ofNat (Int.toNat (c.toNat + run.offset))
  | none => c

def lowercase (s : String) : String := s.map (mapCase lowerRuns)

def uppercase (s : String) : String := s.map (mapCase upperRuns)

end QueryFusion.Text
