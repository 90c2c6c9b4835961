/-! The characters of the Unicode categories Nd, Nl and No, as ascending runs of code points.
A run is its first code point and how many there are. -/

namespace Retouch.Text

/-- Code points of digits, letter numbers and other numbers, ascending and disjoint. -/
def numericRuns : List (Nat × Nat) :=
  [(0x30, 10), (0xB2, 2), (0xB9, 1), (0xBC, 3), (0x660, 10), (0x6F0, 10), (0x7C0, 10), (0x966, 10),
   (0x9E6, 10), (0x9F4, 6), (0xA66, 10), (0xAE6, 10), (0xB66, 10), (0xB72, 6), (0xBE6, 13),
   (0xC66, 10), (0xC78, 7), (0xCE6, 10), (0xD58, 7), (0xD66, 19), (0xDE6, 10), (0xE50, 10),
   (0xED0, 10), (0xF20, 20), (0x1040, 10), (0x1090, 10), (0x1369, 20), (0x16EE, 3), (0x17E0, 10),
   (0x17F0, 10), (0x1810, 10), (0x1946, 10), (0x19D0, 11), (0x1A80, 10), (0x1A90, 10), (0x1B50, 10),
   (0x1BB0, 10), (0x1C40, 10), (0x1C50, 10), (0x2070, 1), (0x2074, 6), (0x2080, 10), (0x2150, 51),
   (0x2185, 5), (0x2460, 60), (0x24EA, 22), (0x2776, 30), (0x2CFD, 1), (0x3007, 1), (0x3021, 9),
   (0x3038, 3), (0x3192, 4), (0x3220, 10), (0x3248, 8), (0x3251, 15), (0x3280, 10), (0x32B1, 15),
   (0xA620, 10), (0xA6E6, 10), (0xA830, 6), (0xA8D0, 10), (0xA900, 10), (0xA9D0, 10), (0xA9F0, 10),
   (0xAA50, 10), (0xABF0, 10), (0xFF10, 10), (0x10107, 45), (0x10140, 57), (0x1018A, 2),
   (0x102E1, 27), (0x10320, 4), (0x10341, 1), (0x1034A, 1), (0x103D1, 5), (0x104A0, 10),
   (0x10858, 8), (0x10879, 7), (0x108A7, 9), (0x108FB, 5), (0x10916, 6), (0x109BC, 2),
   (0x109C0, 16), (0x109D2, 46), (0x10A40, 9), (0x10A7D, 2), (0x10A9D, 3), (0x10AEB, 5),
   (0x10B58, 8), (0x10B78, 8), (0x10BA9, 7), (0x10CFA, 6), (0x10D30, 10), (0x10D40, 10),
   (0x10E60, 31), (0x10F1D, 10), (0x10F51, 4), (0x10FC5, 7), (0x11052, 30), (0x110F0, 10),
   (0x11136, 10), (0x111D0, 10), (0x111E1, 20), (0x112F0, 10), (0x11450, 10), (0x114D0, 10),
   (0x11650, 10), (0x116C0, 10), (0x116D0, 20), (0x11730, 12), (0x118E0, 19), (0x11950, 10),
   (0x11BF0, 10), (0x11C50, 29), (0x11D50, 10), (0x11DA0, 10), (0x11DE0, 10), (0x11F50, 10),
   (0x11FC0, 21), (0x12400, 111), (0x16130, 10), (0x16A60, 10), (0x16AC0, 10), (0x16B50, 10),
   (0x16B5B, 7), (0x16D70, 10), (0x16E80, 23), (0x16FF4, 3), (0x1CCF0, 10), (0x1D2C0, 20),
   (0x1D2E0, 20), (0x1D360, 25), (0x1D7CE, 50), (0x1E140, 10), (0x1E2F0, 10), (0x1E4F0, 10),
   (0x1E5F1, 10), (0x1E8C7, 9), (0x1E950, 10), (0x1EC71, 59), (0x1ECAD, 3), (0x1ECB1, 4),
   (0x1ED01, 45), (0x1ED2F, 15), (0x1F100, 13), (0x1FBF0, 10)]

end Retouch.Text
