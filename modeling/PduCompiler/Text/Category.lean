/-!
Characters by the general categories of Unicode, and the simple case maps, one code point to one code
point.
-/

namespace PduCompiler.Text

/-- Whether a code point is in a set that is given by the lengths of runs, from 0 on: one outside the
set, one inside it, and so on in turn. -/
def inRuns : List Nat → Nat → Bool
  | outside :: inside :: rest, n =>
    outside ≤ n && (n - outside < inside || inRuns rest (n - outside - inside))
  | _, _ => false

/-- Ranges `(first, span, step)` of the upper case letters (category Lu). -/
def upperRanges : Array (Nat × Nat × Nat) := #[
  (0x41, 25, 1), (0xc0, 22, 1), (0xd8, 6, 1), (0x100, 54, 2), (0x139, 14, 2), (0x14a, 46, 2),
  (0x179, 4, 2), (0x181, 1, 1), (0x184, 2, 2), (0x187, 2, 2), (0x18a, 1, 1), (0x18e, 3, 1),
  (0x193, 1, 1), (0x196, 2, 1), (0x19c, 1, 1), (0x19f, 1, 1), (0x1a2, 4, 2), (0x1a7, 2, 2),
  (0x1ac, 2, 2), (0x1af, 2, 2), (0x1b2, 1, 1), (0x1b5, 2, 2), (0x1b8, 0, 1), (0x1bc, 0, 1),
  (0x1c4, 0, 1), (0x1c7, 0, 1), (0x1ca, 0, 1), (0x1cd, 14, 2), (0x1de, 16, 2), (0x1f1, 0, 1),
  (0x1f4, 2, 2), (0x1f7, 1, 1), (0x1fa, 56, 2), (0x23a, 1, 1), (0x23d, 1, 1), (0x241, 2, 2),
  (0x244, 2, 1), (0x248, 6, 2), (0x370, 2, 2), (0x376, 0, 1), (0x37f, 0, 1), (0x386, 2, 2),
  (0x389, 1, 1), (0x38c, 2, 2), (0x38f, 2, 2), (0x392, 15, 1), (0x3a3, 8, 1), (0x3cf, 0, 1),
  (0x3d2, 2, 1), (0x3d8, 22, 2), (0x3f4, 0, 1), (0x3f7, 2, 2), (0x3fa, 0, 1), (0x3fd, 50, 1),
  (0x460, 32, 2), (0x48a, 54, 2), (0x4c1, 12, 2), (0x4d0, 94, 2), (0x531, 37, 1), (0x10a0, 37, 1),
  (0x10c7, 0, 1), (0x10cd, 0, 1), (0x13a0, 85, 1), (0x1c89, 0, 1), (0x1c90, 42, 1), (0x1cbd, 2, 1),
  (0x1e00, 148, 2), (0x1e9e, 96, 2), (0x1f08, 7, 1), (0x1f18, 5, 1), (0x1f28, 7, 1), (0x1f38, 7, 1),
  (0x1f48, 5, 1), (0x1f59, 6, 2), (0x1f68, 7, 1), (0x1fb8, 3, 1), (0x1fc8, 3, 1), (0x1fd8, 3, 1),
  (0x1fe8, 4, 1), (0x1ff8, 3, 1), (0x2102, 0, 1), (0x2107, 0, 1), (0x210b, 2, 1), (0x2110, 2, 1),
  (0x2115, 0, 1), (0x2119, 4, 1), (0x2124, 6, 2), (0x212b, 2, 1), (0x2130, 3, 1), (0x213e, 1, 1),
  (0x2145, 0, 1), (0x2183, 0, 1), (0x2c00, 47, 1), (0x2c60, 2, 2), (0x2c63, 1, 1), (0x2c67, 6, 2),
  (0x2c6e, 2, 1), (0x2c72, 0, 1), (0x2c75, 0, 1), (0x2c7e, 2, 1), (0x2c82, 96, 2), (0x2ceb, 2, 2),
  (0x2cf2, 0, 1), (0xa640, 44, 2), (0xa680, 26, 2), (0xa722, 12, 2), (0xa732, 60, 2),
  (0xa779, 4, 2), (0xa77e, 8, 2), (0xa78b, 2, 2), (0xa790, 2, 2), (0xa796, 20, 2), (0xa7ab, 3, 1),
  (0xa7b0, 4, 1), (0xa7b6, 14, 2), (0xa7c5, 2, 1), (0xa7c9, 2, 2), (0xa7cc, 16, 2), (0xa7f5, 0, 1),
  (0xff21, 25, 1), (0x10400, 39, 1), (0x104b0, 35, 1), (0x10570, 10, 1), (0x1057c, 14, 1),
  (0x1058c, 6, 1), (0x10594, 1, 1), (0x10c80, 50, 1), (0x10d50, 21, 1), (0x118a0, 31, 1),
  (0x16e40, 31, 1), (0x16ea0, 24, 1), (0x1d400, 25, 1), (0x1d434, 25, 1), (0x1d468, 25, 1),
  (0x1d49c, 2, 2), (0x1d49f, 0, 1), (0x1d4a2, 0, 1), (0x1d4a5, 1, 1), (0x1d4a9, 3, 1),
  (0x1d4ae, 7, 1), (0x1d4d0, 25, 1), (0x1d504, 1, 1), (0x1d507, 3, 1), (0x1d50d, 7, 1),
  (0x1d516, 6, 1), (0x1d538, 1, 1), (0x1d53b, 3, 1), (0x1d540, 4, 1), (0x1d546, 0, 1),
  (0x1d54a, 6, 1), (0x1d56c, 25, 1), (0x1d5a0, 25, 1), (0x1d5d4, 25, 1), (0x1d608, 25, 1),
  (0x1d63c, 25, 1), (0x1d670, 25, 1), (0x1d6a8, 24, 1), (0x1d6e2, 24, 1), (0x1d71c, 24, 1),
  (0x1d756, 24, 1), (0x1d790, 24, 1), (0x1d7ca, 0, 1), (0x1e900, 33, 1)]

/-- Ranges `(first, span, step)` of the lower case letters (category Ll). -/
def lowerRanges : Array (Nat × Nat × Nat) := #[
  (0x61, 25, 1), (0xb5, 0, 1), (0xdf, 23, 1), (0xf8, 7, 1), (0x101, 54, 2), (0x138, 16, 2),
  (0x149, 46, 2), (0x17a, 4, 2), (0x17f, 1, 1), (0x183, 2, 2), (0x188, 0, 1), (0x18c, 1, 1),
  (0x192, 0, 1), (0x195, 0, 1), (0x199, 2, 1), (0x19e, 0, 1), (0x1a1, 4, 2), (0x1a8, 2, 2),
  (0x1ab, 2, 2), (0x1b0, 0, 1), (0x1b4, 2, 2), (0x1b9, 1, 1), (0x1bd, 2, 1), (0x1c6, 0, 1),
  (0x1c9, 0, 1), (0x1cc, 16, 2), (0x1dd, 18, 2), (0x1f0, 0, 1), (0x1f3, 2, 2), (0x1f9, 58, 2),
  (0x234, 5, 1), (0x23c, 0, 1), (0x23f, 1, 1), (0x242, 0, 1), (0x247, 8, 2), (0x250, 67, 1),
  (0x295, 26, 1), (0x371, 2, 2), (0x377, 0, 1), (0x37b, 2, 1), (0x390, 0, 1), (0x3ac, 34, 1),
  (0x3d0, 1, 1), (0x3d5, 2, 1), (0x3d9, 22, 2), (0x3f0, 3, 1), (0x3f5, 0, 1), (0x3f8, 0, 1),
  (0x3fb, 1, 1), (0x430, 47, 1), (0x461, 32, 2), (0x48b, 52, 2), (0x4c2, 12, 2), (0x4cf, 96, 2),
  (0x560, 40, 1), (0x10d0, 42, 1), (0x10fd, 2, 1), (0x13f8, 5, 1), (0x1c80, 8, 1), (0x1c8a, 0, 1),
  (0x1d00, 43, 1), (0x1d6b, 12, 1), (0x1d79, 33, 1), (0x1e01, 148, 2), (0x1e96, 7, 1),
  (0x1e9f, 96, 2), (0x1f00, 7, 1), (0x1f10, 5, 1), (0x1f20, 7, 1), (0x1f30, 7, 1), (0x1f40, 5, 1),
  (0x1f50, 7, 1), (0x1f60, 7, 1), (0x1f70, 13, 1), (0x1f80, 7, 1), (0x1f90, 7, 1), (0x1fa0, 7, 1),
  (0x1fb0, 4, 1), (0x1fb6, 1, 1), (0x1fbe, 0, 1), (0x1fc2, 2, 1), (0x1fc6, 1, 1), (0x1fd0, 3, 1),
  (0x1fd6, 1, 1), (0x1fe0, 7, 1), (0x1ff2, 2, 1), (0x1ff6, 1, 1), (0x210a, 0, 1), (0x210e, 1, 1),
  (0x2113, 0, 1), (0x212f, 0, 1), (0x2134, 0, 1), (0x2139, 0, 1), (0x213c, 1, 1), (0x2146, 3, 1),
  (0x214e, 0, 1), (0x2184, 0, 1), (0x2c30, 47, 1), (0x2c61, 0, 1), (0x2c65, 1, 1), (0x2c68, 4, 2),
  (0x2c71, 2, 2), (0x2c74, 2, 2), (0x2c77, 4, 1), (0x2c81, 98, 2), (0x2ce4, 0, 1), (0x2cec, 2, 2),
  (0x2cf3, 0, 1), (0x2d00, 37, 1), (0x2d27, 0, 1), (0x2d2d, 0, 1), (0xa641, 44, 2), (0xa681, 26, 2),
  (0xa723, 12, 2), (0xa730, 1, 1), (0xa733, 62, 2), (0xa772, 6, 1), (0xa77a, 2, 2), (0xa77f, 8, 2),
  (0xa78c, 2, 2), (0xa791, 2, 2), (0xa794, 1, 1), (0xa797, 18, 2), (0xa7af, 0, 1), (0xa7b5, 14, 2),
  (0xa7c8, 2, 2), (0xa7cd, 14, 2), (0xa7f6, 0, 1), (0xa7fa, 0, 1), (0xab30, 42, 1), (0xab60, 8, 1),
  (0xab70, 79, 1), (0xfb00, 6, 1), (0xfb13, 4, 1), (0xff41, 25, 1), (0x10428, 39, 1),
  (0x104d8, 35, 1), (0x10597, 10, 1), (0x105a3, 14, 1), (0x105b3, 6, 1), (0x105bb, 1, 1),
  (0x10cc0, 50, 1), (0x10d70, 21, 1), (0x118c0, 31, 1), (0x16e60, 31, 1), (0x16ebb, 24, 1),
  (0x1d41a, 25, 1), (0x1d44e, 6, 1), (0x1d456, 17, 1), (0x1d482, 25, 1), (0x1d4b6, 3, 1),
  (0x1d4bb, 2, 2), (0x1d4be, 5, 1), (0x1d4c5, 10, 1), (0x1d4ea, 25, 1), (0x1d51e, 25, 1),
  (0x1d552, 25, 1), (0x1d586, 25, 1), (0x1d5ba, 25, 1), (0x1d5ee, 25, 1), (0x1d622, 25, 1),
  (0x1d656, 25, 1), (0x1d68a, 27, 1), (0x1d6c2, 24, 1), (0x1d6dc, 5, 1), (0x1d6fc, 24, 1),
  (0x1d716, 5, 1), (0x1d736, 24, 1), (0x1d750, 5, 1), (0x1d770, 24, 1), (0x1d78a, 5, 1),
  (0x1d7aa, 24, 1), (0x1d7c4, 5, 1), (0x1d7cb, 0, 1), (0x1df00, 9, 1), (0x1df0b, 19, 1),
  (0x1df25, 5, 1), (0x1e922, 33, 1)]

/-- The letters of every kind (category L). -/
def letterRuns : List Nat := [
  65, 26, 6, 26, 47, 1, 10, 1, 4, 1, 5, 23, 1, 31, 1, 458, 4, 12, 14, 5, 7, 1, 1, 1, 129, 5, 1, 2,
  2, 4, 1, 1, 6, 1, 1, 3, 1, 1, 1, 20, 1, 83, 1, 139, 8, 166, 1, 38, 2, 1, 6, 41, 71, 27, 4, 4, 45,
  43, 35, 2, 1, 99, 1, 1, 15, 2, 7, 2, 10, 3, 2, 1, 16, 1, 1, 30, 29, 89, 11, 1, 24, 33, 9, 2, 4, 1,
  5, 22, 4, 1, 9, 1, 3, 1, 23, 25, 7, 11, 5, 24, 1, 7, 16, 42, 58, 54, 3, 1, 18, 1, 7, 10, 15, 16,
  4, 8, 2, 2, 2, 22, 1, 7, 1, 1, 3, 4, 3, 1, 16, 1, 13, 2, 1, 3, 14, 2, 10, 1, 8, 6, 4, 2, 2, 22, 1,
  7, 1, 2, 1, 2, 1, 2, 31, 4, 1, 1, 19, 3, 16, 9, 1, 3, 1, 22, 1, 7, 1, 2, 1, 5, 3, 1, 18, 1, 15, 2,
  23, 1, 11, 8, 2, 2, 2, 22, 1, 7, 1, 2, 1, 5, 3, 1, 30, 2, 1, 3, 15, 1, 17, 1, 1, 6, 3, 3, 1, 4, 3,
  2, 1, 1, 1, 2, 3, 2, 3, 3, 3, 12, 22, 1, 52, 8, 1, 3, 1, 23, 1, 16, 3, 1, 26, 3, 1, 2, 2, 2, 30,
  1, 4, 8, 1, 3, 1, 23, 1, 10, 1, 5, 3, 1, 30, 3, 1, 2, 15, 2, 17, 9, 1, 3, 1, 41, 2, 1, 16, 1, 5,
  3, 8, 3, 24, 6, 5, 18, 3, 24, 1, 9, 1, 1, 2, 7, 58, 48, 1, 2, 12, 7, 58, 2, 1, 1, 1, 5, 1, 24, 1,
  1, 1, 10, 1, 2, 9, 1, 2, 5, 1, 1, 21, 4, 32, 1, 63, 8, 1, 36, 27, 5, 115, 43, 20, 1, 16, 6, 4, 4,
  3, 1, 3, 2, 7, 3, 4, 13, 12, 1, 17, 38, 1, 1, 5, 1, 2, 43, 1, 333, 1, 4, 2, 7, 1, 1, 1, 4, 2, 41,
  1, 4, 2, 33, 1, 4, 2, 7, 1, 1, 1, 4, 2, 15, 1, 57, 1, 4, 2, 67, 37, 16, 16, 86, 2, 6, 3, 620, 2,
  17, 1, 26, 5, 75, 6, 8, 7, 18, 13, 19, 14, 18, 14, 13, 1, 3, 15, 52, 35, 1, 4, 1, 67, 89, 7, 5, 2,
  34, 1, 1, 5, 70, 10, 31, 49, 30, 2, 5, 11, 44, 4, 26, 54, 23, 9, 53, 82, 1, 93, 47, 17, 8, 54, 30,
  13, 2, 10, 44, 26, 36, 41, 3, 10, 36, 2, 11, 5, 43, 2, 3, 41, 4, 1, 6, 1, 2, 3, 1, 5, 192, 64,
  278, 2, 6, 2, 38, 2, 6, 2, 8, 1, 1, 1, 1, 1, 1, 1, 31, 2, 53, 1, 7, 1, 1, 3, 3, 1, 7, 3, 4, 2, 6,
  4, 13, 5, 3, 1, 7, 116, 1, 13, 1, 16, 13, 101, 1, 4, 1, 2, 10, 1, 1, 3, 5, 6, 1, 1, 1, 1, 1, 1, 4,
  1, 11, 2, 4, 5, 5, 4, 1, 52, 2, 2683, 229, 6, 4, 3, 2, 12, 38, 1, 1, 5, 1, 2, 56, 7, 1, 16, 23, 9,
  7, 1, 7, 1, 7, 1, 7, 1, 7, 1, 7, 1, 7, 1, 7, 80, 1, 469, 2, 42, 5, 5, 2, 4, 86, 6, 3, 1, 90, 1, 4,
  5, 43, 1, 94, 17, 32, 48, 16, 512, 6592, 64, 22157, 67, 46, 2, 269, 3, 16, 10, 2, 20, 47, 16, 31,
  2, 70, 49, 9, 2, 103, 2, 82, 20, 17, 1, 3, 1, 4, 1, 23, 29, 52, 14, 50, 62, 6, 3, 1, 1, 2, 11, 28,
  10, 23, 25, 29, 7, 47, 28, 1, 16, 5, 1, 10, 10, 5, 1, 41, 23, 3, 1, 8, 20, 23, 3, 1, 3, 50, 1, 1,
  3, 2, 2, 5, 2, 1, 1, 1, 24, 3, 2, 11, 7, 3, 12, 6, 2, 6, 2, 6, 9, 7, 1, 7, 1, 43, 1, 14, 6, 115,
  29, 11172, 12, 23, 4, 49, 8452, 366, 2, 106, 38, 7, 12, 5, 5, 1, 1, 10, 1, 13, 1, 5, 1, 1, 1, 2,
  1, 2, 1, 108, 33, 363, 18, 64, 2, 54, 40, 12, 116, 5, 1, 135, 36, 26, 6, 26, 11, 89, 3, 6, 2, 6,
  2, 6, 2, 3, 35, 12, 1, 26, 1, 19, 1, 2, 1, 15, 2, 14, 34, 123, 389, 29, 3, 49, 47, 32, 13, 20, 1,
  8, 6, 38, 10, 30, 2, 36, 4, 8, 48, 158, 18, 36, 4, 36, 4, 40, 8, 52, 12, 11, 1, 15, 1, 7, 1, 2, 1,
  11, 1, 15, 1, 7, 1, 2, 3, 52, 12, 311, 9, 22, 10, 8, 24, 6, 1, 42, 1, 9, 69, 6, 2, 1, 1, 44, 1, 2,
  3, 1, 2, 23, 10, 23, 9, 31, 65, 19, 1, 2, 10, 22, 10, 26, 6, 26, 38, 56, 6, 2, 64, 1, 15, 4, 1, 3,
  1, 29, 42, 29, 3, 29, 35, 8, 1, 28, 27, 54, 10, 22, 10, 19, 13, 18, 110, 73, 55, 51, 13, 51, 13,
  36, 38, 28, 9, 23, 250, 42, 6, 2, 16, 6, 56, 29, 10, 1, 8, 22, 42, 18, 46, 21, 27, 23, 12, 53, 57,
  2, 2, 1, 13, 45, 32, 25, 26, 36, 29, 1, 2, 1, 8, 35, 3, 1, 12, 48, 14, 4, 21, 1, 1, 1, 35, 18, 1,
  25, 19, 2, 63, 7, 1, 1, 1, 4, 1, 15, 1, 10, 7, 47, 38, 8, 2, 2, 2, 22, 1, 7, 1, 2, 1, 5, 3, 1, 18,
  1, 12, 5, 30, 10, 1, 1, 2, 1, 1, 38, 1, 1, 25, 1, 1, 1, 44, 53, 18, 4, 20, 3, 30, 48, 20, 2, 1, 1,
  184, 47, 41, 4, 36, 48, 20, 1, 59, 43, 13, 1, 71, 27, 37, 7, 185, 44, 116, 64, 31, 8, 2, 1, 2, 8,
  1, 2, 1, 24, 15, 1, 1, 1, 94, 8, 2, 39, 16, 1, 1, 1, 28, 1, 10, 40, 7, 1, 21, 1, 11, 46, 19, 1,
  18, 73, 199, 33, 31, 9, 1, 37, 17, 1, 49, 30, 112, 7, 1, 2, 1, 38, 21, 1, 25, 6, 1, 2, 1, 32, 14,
  1, 23, 44, 260, 19, 15, 1, 1, 13, 1, 34, 124, 1, 79, 922, 230, 196, 2636, 97, 15, 1072, 17, 6, 25,
  3995, 5, 583, 6841, 30, 1762, 569, 7, 31, 17, 79, 17, 30, 18, 48, 16, 4, 31, 21, 5, 19, 432, 45,
  211, 64, 32, 25, 2, 25, 44, 75, 5, 1, 66, 13, 64, 2, 1, 1, 14, 2, 12, 7382, 41, 32, 97, 115, 8701,
  4, 1, 7, 1, 2, 1, 291, 15, 1, 29, 3, 2, 1, 14, 4, 8, 396, 2308, 107, 5, 13, 3, 9, 7, 10, 5990, 85,
  1, 71, 1, 2, 2, 1, 2, 2, 2, 4, 1, 12, 1, 1, 1, 7, 1, 65, 1, 4, 2, 8, 1, 7, 1, 28, 1, 4, 1, 5, 1,
  1, 3, 7, 1, 340, 2, 25, 1, 25, 1, 31, 1, 25, 1, 31, 1, 25, 1, 31, 1, 25, 1, 31, 1, 25, 1, 8, 1844,
  31, 6, 6, 261, 62, 146, 45, 10, 7, 16, 1, 321, 30, 18, 44, 484, 28, 228, 30, 2, 1, 207, 31, 1, 3,
  1, 2, 1, 7, 2, 5, 9, 2, 224, 7, 1, 4, 1, 2, 1, 15, 1, 197, 59, 68, 7, 1, 1204, 4, 1, 27, 1, 2, 1,
  1, 2, 1, 1, 10, 1, 4, 1, 1, 1, 1, 6, 1, 4, 1, 1, 1, 1, 1, 1, 3, 1, 2, 1, 1, 2, 1, 1, 1, 1, 1, 1,
  1, 1, 1, 1, 2, 1, 1, 2, 4, 1, 7, 1, 4, 1, 4, 1, 1, 1, 10, 1, 17, 5, 3, 1, 5, 1, 17, 4420, 42720,
  32, 4382, 2, 5774, 2, 7473, 15, 622, 2466, 542, 1506, 4939, 5, 8490]

/-- The decimal digits (category Nd). -/
def digitRuns : List Nat := [
  48, 10, 1574, 10, 134, 10, 198, 10, 412, 10, 118, 10, 118, 10, 118, 10, 118, 10, 118, 10, 118, 10,
  118, 10, 118, 10, 118, 10, 96, 10, 118, 10, 70, 10, 278, 10, 70, 10, 1862, 10, 38, 10, 300, 10,
  128, 10, 166, 10, 6, 10, 182, 10, 86, 10, 134, 10, 6, 10, 35270, 10, 678, 10, 38, 10, 198, 10, 22,
  10, 86, 10, 406, 10, 21270, 10, 1414, 10, 2182, 10, 6, 10, 796, 10, 128, 10, 60, 10, 144, 10, 278,
  10, 342, 10, 118, 10, 374, 10, 102, 10, 6, 20, 76, 10, 422, 10, 102, 10, 662, 10, 86, 10, 246, 10,
  70, 10, 54, 10, 358, 10, 16854, 10, 2342, 10, 86, 10, 134, 10, 534, 10, 24438, 10, 2772, 50, 2368,
  10, 422, 10, 502, 10, 247, 10, 853, 10, 4758, 10]

/-- Punctuation (category P). -/
def punctuationRuns : List Nat := [
  33, 3, 1, 6, 1, 4, 10, 2, 3, 2, 26, 3, 1, 1, 27, 1, 1, 1, 35, 1, 5, 1, 3, 1, 10, 2, 3, 1, 3, 1,
  702, 1, 8, 1, 466, 6, 41, 2, 51, 1, 1, 1, 2, 1, 2, 1, 44, 2, 20, 2, 1, 2, 13, 1, 1, 3, 74, 4, 102,
  1, 43, 14, 233, 3, 54, 15, 31, 1, 261, 2, 10, 1, 140, 1, 120, 1, 121, 1, 390, 1, 12, 1, 367, 1,
  90, 1, 10, 2, 168, 15, 1, 1, 37, 4, 71, 1, 74, 5, 4, 2, 111, 6, 171, 1, 612, 9, 151, 1, 621, 1,
  44, 2, 78, 3, 71, 2, 157, 3, 1, 3, 37, 11, 313, 2, 216, 2, 128, 7, 1, 6, 160, 2, 10, 7, 28, 3,
  124, 4, 59, 5, 62, 2, 64, 8, 11, 1, 828, 24, 8, 20, 1, 13, 1, 12, 30, 2, 14, 2, 633, 4, 29, 2,
  1085, 14, 79, 2, 31, 10, 403, 22, 63, 4, 32, 2, 763, 4, 1, 2, 112, 1, 143, 47, 1, 32, 2, 12, 419,
  3, 4, 10, 2, 12, 16, 1, 12, 1, 98, 1, 90, 1, 29698, 2, 269, 3, 99, 1, 10, 1, 115, 6, 380, 4, 86,
  2, 40, 3, 1, 1, 49, 2, 47, 1, 97, 13, 16, 2, 124, 4, 126, 2, 16, 2, 249, 1, 20818, 2, 208, 10, 22,
  35, 1, 14, 1, 1, 4, 1, 1, 2, 149, 3, 1, 6, 1, 4, 10, 2, 3, 2, 26, 3, 1, 1, 27, 1, 1, 1, 1, 7, 410,
  3, 668, 1, 48, 1, 414, 1, 743, 1, 199, 1, 31, 1, 272, 9, 38, 1, 112, 7, 66, 7, 89, 4, 465, 1, 318,
  1, 34, 1, 132, 5, 44, 4, 189, 7, 109, 2, 1, 4, 126, 4, 48, 2, 79, 4, 4, 1, 13, 1, 1, 3, 88, 6,
  107, 1, 298, 2, 1, 2, 114, 5, 10, 2, 1, 1, 104, 1, 250, 23, 105, 3, 28, 13, 76, 1, 130, 3, 252, 1,
  264, 3, 155, 1, 92, 8, 83, 3, 1, 5, 93, 10, 215, 1, 95, 5, 42, 2, 645, 2, 74, 13, 175, 1, 1136, 5,
  2940, 2, 14971, 2, 133, 1, 65, 5, 8, 1, 552, 3, 295, 4, 327, 1, 19644, 1, 7655, 5, 2931, 1, 862, 2]

/-- Letters, marks, numbers, punctuation and symbols (categories L, M, N, P and S). -/
def printableRuns : List Nat := [
  33, 94, 34, 12, 1, 714, 2, 6, 4, 7, 1, 1, 1, 20, 1, 397, 1, 38, 2, 50, 2, 3, 1, 55, 8, 27, 4, 6,
  17, 22, 1, 192, 1, 48, 2, 59, 2, 101, 14, 59, 2, 49, 2, 15, 1, 28, 2, 1, 1, 11, 5, 32, 7, 75, 1,
  161, 1, 8, 2, 2, 2, 22, 1, 7, 1, 1, 3, 4, 2, 9, 2, 2, 2, 4, 8, 1, 4, 2, 1, 5, 2, 25, 2, 3, 1, 6,
  4, 2, 2, 22, 1, 7, 1, 2, 1, 2, 1, 2, 2, 1, 1, 5, 4, 2, 2, 3, 3, 1, 7, 4, 1, 1, 7, 17, 10, 3, 1, 9,
  1, 3, 1, 22, 1, 7, 1, 2, 1, 5, 2, 10, 1, 3, 1, 3, 2, 1, 15, 4, 2, 12, 7, 7, 1, 3, 1, 8, 2, 2, 2,
  22, 1, 7, 1, 2, 1, 5, 2, 9, 2, 2, 2, 3, 7, 3, 4, 2, 1, 5, 2, 18, 10, 2, 1, 6, 3, 3, 1, 4, 3, 2, 1,
  1, 1, 2, 3, 2, 3, 3, 3, 12, 4, 5, 3, 3, 1, 4, 2, 1, 6, 1, 14, 21, 5, 13, 1, 3, 1, 23, 1, 16, 2, 9,
  1, 3, 1, 4, 7, 2, 1, 3, 1, 2, 2, 4, 2, 10, 7, 22, 1, 3, 1, 23, 1, 10, 1, 5, 2, 9, 1, 3, 1, 4, 7,
  2, 5, 3, 1, 4, 2, 10, 1, 3, 12, 13, 1, 3, 1, 51, 1, 3, 1, 6, 4, 16, 2, 26, 1, 3, 1, 18, 3, 24, 1,
  9, 1, 1, 2, 7, 3, 1, 4, 6, 1, 1, 1, 8, 6, 10, 2, 3, 12, 58, 4, 29, 37, 2, 1, 1, 1, 5, 1, 24, 1, 1,
  1, 23, 2, 5, 1, 1, 1, 7, 1, 10, 2, 4, 32, 72, 1, 36, 4, 39, 1, 36, 1, 15, 1, 13, 37, 198, 1, 1, 5,
  1, 2, 377, 1, 4, 2, 7, 1, 1, 1, 4, 2, 41, 1, 4, 2, 33, 1, 4, 2, 7, 1, 1, 1, 4, 2, 15, 1, 57, 1, 4,
  2, 67, 2, 32, 3, 26, 6, 86, 2, 6, 2, 640, 1, 28, 3, 89, 7, 22, 9, 24, 9, 20, 12, 13, 1, 3, 1, 2,
  12, 94, 2, 10, 6, 10, 6, 14, 1, 11, 6, 89, 7, 43, 5, 70, 10, 31, 1, 12, 4, 12, 4, 1, 3, 42, 2, 5,
  11, 44, 4, 26, 6, 11, 3, 62, 2, 65, 1, 29, 2, 11, 6, 10, 6, 14, 2, 46, 2, 12, 20, 77, 1, 166, 8,
  60, 3, 15, 3, 62, 5, 43, 2, 11, 8, 43, 5, 534, 2, 6, 2, 38, 2, 6, 2, 8, 1, 1, 1, 1, 1, 1, 1, 31,
  2, 53, 1, 15, 1, 14, 2, 6, 1, 19, 2, 3, 1, 9, 17, 24, 8, 47, 17, 2, 2, 27, 1, 13, 3, 34, 14, 33,
  15, 140, 4, 666, 22, 11, 21, 1812, 2, 382, 5, 45, 1, 1, 5, 1, 2, 56, 7, 2, 14, 24, 9, 7, 1, 7, 1,
  7, 1, 7, 1, 7, 1, 7, 1, 7, 1, 7, 1, 126, 34, 26, 1, 89, 12, 214, 26, 16, 1, 63, 1, 86, 2, 103, 5,
  43, 1, 94, 1, 86, 9, 48, 1, 29293, 3, 55, 9, 348, 20, 184, 8, 221, 20, 60, 3, 10, 6, 56, 8, 70, 8,
  12, 6, 116, 11, 30, 3, 78, 1, 11, 4, 33, 1, 55, 9, 14, 2, 10, 2, 103, 24, 28, 10, 6, 2, 6, 2, 6,
  9, 7, 1, 7, 1, 60, 4, 126, 2, 10, 6, 11172, 12, 23, 4, 49, 8452, 366, 2, 106, 38, 7, 12, 5, 5, 26,
  1, 5, 1, 1, 1, 2, 1, 2, 1, 650, 32, 42, 6, 51, 1, 19, 1, 4, 4, 5, 1, 135, 4, 190, 3, 6, 2, 6, 2,
  6, 2, 3, 3, 7, 1, 7, 13, 2, 2, 12, 1, 26, 1, 19, 1, 2, 1, 15, 2, 14, 34, 123, 5, 3, 4, 45, 3, 88,
  1, 13, 3, 1, 47, 46, 130, 29, 3, 49, 15, 28, 4, 36, 9, 30, 5, 43, 5, 30, 1, 37, 4, 14, 42, 158, 2,
  10, 6, 36, 4, 36, 4, 40, 8, 52, 11, 12, 1, 15, 1, 7, 1, 2, 1, 11, 1, 15, 1, 7, 1, 2, 3, 52, 12,
  311, 9, 22, 10, 8, 24, 6, 1, 42, 1, 9, 69, 6, 2, 1, 1, 44, 1, 2, 3, 1, 2, 23, 1, 72, 8, 9, 48, 19,
  1, 2, 5, 33, 3, 27, 5, 27, 38, 56, 4, 20, 2, 50, 1, 2, 5, 8, 1, 3, 1, 29, 2, 3, 4, 10, 7, 9, 7,
  64, 32, 39, 4, 12, 9, 54, 3, 29, 2, 27, 5, 26, 7, 4, 12, 7, 80, 73, 55, 51, 13, 51, 7, 46, 8, 10,
  6, 38, 3, 29, 8, 2, 208, 31, 1, 42, 1, 3, 2, 2, 16, 6, 8, 9, 33, 46, 8, 42, 22, 26, 38, 28, 20,
  23, 9, 78, 4, 36, 9, 62, 1, 5, 13, 25, 7, 10, 6, 53, 1, 18, 8, 39, 9, 96, 1, 20, 11, 18, 1, 47,
  62, 7, 1, 1, 1, 4, 1, 15, 1, 11, 6, 59, 5, 10, 6, 4, 1, 8, 2, 2, 2, 22, 1, 7, 1, 2, 1, 5, 1, 10,
  2, 2, 2, 3, 2, 1, 6, 1, 5, 7, 2, 7, 3, 5, 11, 10, 1, 1, 2, 1, 1, 38, 1, 10, 1, 1, 2, 1, 1, 4, 1,
  10, 1, 2, 8, 2, 29, 92, 1, 5, 30, 72, 8, 10, 166, 54, 2, 38, 34, 69, 11, 10, 6, 13, 19, 58, 6, 10,
  6, 20, 28, 27, 2, 15, 4, 23, 185, 60, 100, 83, 12, 8, 2, 1, 2, 8, 1, 2, 1, 30, 1, 2, 2, 12, 9, 10,
  70, 8, 2, 46, 2, 11, 27, 72, 8, 83, 13, 73, 7, 10, 86, 8, 88, 34, 14, 10, 6, 9, 1, 45, 1, 14, 10,
  29, 3, 32, 2, 22, 1, 14, 73, 7, 1, 2, 1, 44, 3, 1, 1, 2, 1, 9, 8, 10, 6, 6, 1, 2, 1, 37, 1, 2, 1,
  6, 7, 10, 6, 44, 4, 10, 246, 25, 7, 17, 1, 41, 3, 29, 85, 1, 15, 50, 13, 923, 102, 111, 1, 5, 11,
  196, 2636, 99, 13, 1072, 16, 22, 10, 3995, 5, 583, 6841, 58, 1734, 569, 7, 31, 1, 10, 4, 81, 1,
  10, 6, 30, 2, 6, 10, 70, 10, 10, 1, 7, 1, 21, 5, 19, 432, 58, 198, 91, 5, 25, 2, 25, 44, 75, 4,
  57, 7, 17, 64, 5, 11, 7, 9, 7382, 41, 32, 97, 115, 8701, 4, 1, 7, 1, 2, 1, 291, 15, 1, 29, 3, 2,
  1, 14, 4, 8, 396, 2308, 107, 5, 13, 3, 9, 7, 10, 2, 4, 3936, 253, 3, 436, 6, 23, 15, 17, 15, 46,
  2, 23, 9, 116, 60, 246, 10, 39, 2, 74, 8, 112, 21, 70, 122, 20, 12, 20, 12, 87, 9, 25, 135, 85, 1,
  71, 1, 2, 2, 1, 2, 2, 2, 4, 1, 12, 1, 1, 1, 7, 1, 65, 1, 4, 2, 8, 1, 7, 1, 28, 1, 4, 1, 5, 1, 1,
  3, 7, 1, 340, 2, 292, 2, 702, 15, 5, 1, 15, 1104, 31, 6, 6, 213, 7, 1, 17, 2, 7, 1, 2, 1, 5, 5,
  62, 33, 1, 112, 45, 3, 14, 2, 10, 4, 2, 320, 31, 17, 58, 5, 1, 464, 42, 214, 43, 4, 1, 192, 31, 1,
  22, 8, 2, 224, 7, 1, 4, 1, 2, 1, 15, 1, 197, 2, 16, 41, 76, 4, 10, 4, 2, 785, 68, 76, 61, 194, 4,
  1, 27, 1, 2, 1, 1, 2, 1, 1, 10, 1, 4, 1, 1, 1, 1, 6, 1, 4, 1, 1, 1, 1, 1, 1, 3, 1, 2, 1, 1, 2, 1,
  1, 1, 1, 1, 1, 1, 1, 1, 1, 2, 1, 1, 2, 4, 1, 7, 1, 4, 1, 4, 1, 1, 1, 10, 1, 17, 5, 3, 1, 5, 1, 17,
  52, 2, 270, 44, 4, 100, 12, 15, 2, 15, 1, 15, 1, 37, 10, 174, 56, 29, 13, 44, 4, 9, 7, 2, 14, 6,
  154, 985, 3, 17, 3, 13, 3, 218, 6, 12, 4, 1, 15, 12, 4, 56, 8, 10, 6, 40, 8, 30, 2, 12, 4, 2, 14,
  9, 39, 344, 8, 14, 2, 13, 3, 11, 3, 57, 1, 1, 4, 16, 2, 12, 4, 10, 7, 147, 1, 103, 1029, 42720,
  32, 4382, 2, 5774, 2, 7473, 15, 622, 2466, 542, 1506, 4939, 5, 8490, 707718, 240]

/-- Ranges `(first, span, step, shift)` of the code points with an upper case partner `shift`
away. -/
def toUpperRanges : Array (Nat × Nat × Nat × Int) := #[
  (0x61, 25, 1, -32), (0xb5, 0, 1, 743), (0xe0, 22, 1, -32), (0xf8, 6, 1, -32), (0xff, 0, 1, 121),
  (0x101, 46, 2, -1), (0x131, 0, 1, -232), (0x133, 4, 2, -1), (0x13a, 14, 2, -1),
  (0x14b, 44, 2, -1), (0x17a, 4, 2, -1), (0x17f, 0, 1, -300), (0x180, 0, 1, 195), (0x183, 2, 2, -1),
  (0x188, 0, 1, -1), (0x18c, 0, 1, -1), (0x192, 0, 1, -1), (0x195, 0, 1, 97), (0x199, 0, 1, -1),
  (0x19a, 0, 1, 163), (0x19b, 0, 1, 42561), (0x19e, 0, 1, 130), (0x1a1, 4, 2, -1),
  (0x1a8, 0, 1, -1), (0x1ad, 0, 1, -1), (0x1b0, 0, 1, -1), (0x1b4, 2, 2, -1), (0x1b9, 0, 1, -1),
  (0x1bd, 0, 1, -1), (0x1bf, 0, 1, 56), (0x1c5, 0, 1, -1), (0x1c6, 0, 1, -2), (0x1c8, 0, 1, -1),
  (0x1c9, 0, 1, -2), (0x1cb, 0, 1, -1), (0x1cc, 0, 1, -2), (0x1ce, 14, 2, -1), (0x1dd, 0, 1, -79),
  (0x1df, 16, 2, -1), (0x1f2, 0, 1, -1), (0x1f3, 0, 1, -2), (0x1f5, 0, 1, -1), (0x1f9, 38, 2, -1),
  (0x223, 16, 2, -1), (0x23c, 0, 1, -1), (0x23f, 1, 1, 10815), (0x242, 0, 1, -1), (0x247, 8, 2, -1),
  (0x250, 0, 1, 10783), (0x251, 0, 1, 10780), (0x252, 0, 1, 10782), (0x253, 0, 1, -210),
  (0x254, 0, 1, -206), (0x256, 1, 1, -205), (0x259, 0, 1, -202), (0x25b, 0, 1, -203),
  (0x25c, 0, 1, 42319), (0x260, 0, 1, -205), (0x261, 0, 1, 42315), (0x263, 0, 1, -207),
  (0x264, 0, 1, 42343), (0x265, 0, 1, 42280), (0x266, 0, 1, 42308), (0x268, 0, 1, -209),
  (0x269, 0, 1, -211), (0x26a, 0, 1, 42308), (0x26b, 0, 1, 10743), (0x26c, 0, 1, 42305),
  (0x26f, 0, 1, -211), (0x271, 0, 1, 10749), (0x272, 0, 1, -213), (0x275, 0, 1, -214),
  (0x27d, 0, 1, 10727), (0x280, 0, 1, -218), (0x282, 0, 1, 42307), (0x283, 0, 1, -218),
  (0x287, 0, 1, 42282), (0x288, 0, 1, -218), (0x289, 0, 1, -69), (0x28a, 1, 1, -217),
  (0x28c, 0, 1, -71), (0x292, 0, 1, -219), (0x29d, 0, 1, 42261), (0x29e, 0, 1, 42258),
  (0x345, 0, 1, 84), (0x371, 2, 2, -1), (0x377, 0, 1, -1), (0x37b, 2, 1, 130), (0x3ac, 0, 1, -38),
  (0x3ad, 2, 1, -37), (0x3b1, 16, 1, -32), (0x3c2, 0, 1, -31), (0x3c3, 8, 1, -32),
  (0x3cc, 0, 1, -64), (0x3cd, 1, 1, -63), (0x3d0, 0, 1, -62), (0x3d1, 0, 1, -57),
  (0x3d5, 0, 1, -47), (0x3d6, 0, 1, -54), (0x3d7, 0, 1, -8), (0x3d9, 22, 2, -1), (0x3f0, 0, 1, -86),
  (0x3f1, 0, 1, -80), (0x3f2, 0, 1, 7), (0x3f3, 0, 1, -116), (0x3f5, 0, 1, -96), (0x3f8, 0, 1, -1),
  (0x3fb, 0, 1, -1), (0x430, 31, 1, -32), (0x450, 15, 1, -80), (0x461, 32, 2, -1),
  (0x48b, 52, 2, -1), (0x4c2, 12, 2, -1), (0x4cf, 0, 1, -15), (0x4d1, 94, 2, -1),
  (0x561, 37, 1, -48), (0x10d0, 42, 1, 3008), (0x10fd, 2, 1, 3008), (0x13f8, 5, 1, -8),
  (0x1c80, 0, 1, -6254), (0x1c81, 0, 1, -6253), (0x1c82, 0, 1, -6244), (0x1c83, 1, 1, -6242),
  (0x1c85, 0, 1, -6243), (0x1c86, 0, 1, -6236), (0x1c87, 0, 1, -6181), (0x1c88, 0, 1, 35266),
  (0x1c8a, 0, 1, -1), (0x1d79, 0, 1, 35332), (0x1d7d, 0, 1, 3814), (0x1d8e, 0, 1, 35384),
  (0x1e01, 148, 2, -1), (0x1e9b, 0, 1, -59), (0x1ea1, 94, 2, -1), (0x1f00, 7, 1, 8),
  (0x1f10, 5, 1, 8), (0x1f20, 7, 1, 8), (0x1f30, 7, 1, 8), (0x1f40, 5, 1, 8), (0x1f51, 6, 2, 8),
  (0x1f60, 7, 1, 8), (0x1f70, 1, 1, 74), (0x1f72, 3, 1, 86), (0x1f76, 1, 1, 100),
  (0x1f78, 1, 1, 128), (0x1f7a, 1, 1, 112), (0x1f7c, 1, 1, 126), (0x1f80, 7, 1, 8),
  (0x1f90, 7, 1, 8), (0x1fa0, 7, 1, 8), (0x1fb0, 1, 1, 8), (0x1fb3, 0, 1, 9), (0x1fbe, 0, 1, -7205),
  (0x1fc3, 0, 1, 9), (0x1fd0, 1, 1, 8), (0x1fe0, 1, 1, 8), (0x1fe5, 0, 1, 7), (0x1ff3, 0, 1, 9),
  (0x214e, 0, 1, -28), (0x2170, 15, 1, -16), (0x2184, 0, 1, -1), (0x24d0, 25, 1, -26),
  (0x2c30, 47, 1, -48), (0x2c61, 0, 1, -1), (0x2c65, 0, 1, -10795), (0x2c66, 0, 1, -10792),
  (0x2c68, 4, 2, -1), (0x2c73, 0, 1, -1), (0x2c76, 0, 1, -1), (0x2c81, 98, 2, -1),
  (0x2cec, 2, 2, -1), (0x2cf3, 0, 1, -1), (0x2d00, 37, 1, -7264), (0x2d27, 0, 1, -7264),
  (0x2d2d, 0, 1, -7264), (0xa641, 44, 2, -1), (0xa681, 26, 2, -1), (0xa723, 12, 2, -1),
  (0xa733, 60, 2, -1), (0xa77a, 2, 2, -1), (0xa77f, 8, 2, -1), (0xa78c, 0, 1, -1),
  (0xa791, 2, 2, -1), (0xa794, 0, 1, 48), (0xa797, 18, 2, -1), (0xa7b5, 14, 2, -1),
  (0xa7c8, 2, 2, -1), (0xa7cd, 14, 2, -1), (0xa7f6, 0, 1, -1), (0xab53, 0, 1, -928),
  (0xab70, 79, 1, -38864), (0xff41, 25, 1, -32), (0x10428, 39, 1, -40), (0x104d8, 35, 1, -40),
  (0x10597, 10, 1, -39), (0x105a3, 14, 1, -39), (0x105b3, 6, 1, -39), (0x105bb, 1, 1, -39),
  (0x10cc0, 50, 1, -64), (0x10d70, 21, 1, -32), (0x118c0, 31, 1, -32), (0x16e60, 31, 1, -32),
  (0x16ebb, 24, 1, -27), (0x1e922, 33, 1, -34)]

/-- Ranges `(first, span, step, shift)` of the code points with a lower case partner `shift`
away. -/
def toLowerRanges : Array (Nat × Nat × Nat × Int) := #[
  (0x41, 25, 1, 32), (0xc0, 22, 1, 32), (0xd8, 6, 1, 32), (0x100, 46, 2, 1), (0x130, 0, 1, -199),
  (0x132, 4, 2, 1), (0x139, 14, 2, 1), (0x14a, 44, 2, 1), (0x178, 0, 1, -121), (0x179, 4, 2, 1),
  (0x181, 0, 1, 210), (0x182, 2, 2, 1), (0x186, 0, 1, 206), (0x187, 0, 1, 1), (0x189, 1, 1, 205),
  (0x18b, 0, 1, 1), (0x18e, 0, 1, 79), (0x18f, 0, 1, 202), (0x190, 0, 1, 203), (0x191, 0, 1, 1),
  (0x193, 0, 1, 205), (0x194, 0, 1, 207), (0x196, 0, 1, 211), (0x197, 0, 1, 209), (0x198, 0, 1, 1),
  (0x19c, 0, 1, 211), (0x19d, 0, 1, 213), (0x19f, 0, 1, 214), (0x1a0, 4, 2, 1), (0x1a6, 0, 1, 218),
  (0x1a7, 0, 1, 1), (0x1a9, 0, 1, 218), (0x1ac, 0, 1, 1), (0x1ae, 0, 1, 218), (0x1af, 0, 1, 1),
  (0x1b1, 1, 1, 217), (0x1b3, 2, 2, 1), (0x1b7, 0, 1, 219), (0x1b8, 0, 1, 1), (0x1bc, 0, 1, 1),
  (0x1c4, 0, 1, 2), (0x1c5, 0, 1, 1), (0x1c7, 0, 1, 2), (0x1c8, 0, 1, 1), (0x1ca, 0, 1, 2),
  (0x1cb, 16, 2, 1), (0x1de, 16, 2, 1), (0x1f1, 0, 1, 2), (0x1f2, 2, 2, 1), (0x1f6, 0, 1, -97),
  (0x1f7, 0, 1, -56), (0x1f8, 38, 2, 1), (0x220, 0, 1, -130), (0x222, 16, 2, 1),
  (0x23a, 0, 1, 10795), (0x23b, 0, 1, 1), (0x23d, 0, 1, -163), (0x23e, 0, 1, 10792),
  (0x241, 0, 1, 1), (0x243, 0, 1, -195), (0x244, 0, 1, 69), (0x245, 0, 1, 71), (0x246, 8, 2, 1),
  (0x370, 2, 2, 1), (0x376, 0, 1, 1), (0x37f, 0, 1, 116), (0x386, 0, 1, 38), (0x388, 2, 1, 37),
  (0x38c, 0, 1, 64), (0x38e, 1, 1, 63), (0x391, 16, 1, 32), (0x3a3, 8, 1, 32), (0x3cf, 0, 1, 8),
  (0x3d8, 22, 2, 1), (0x3f4, 0, 1, -60), (0x3f7, 0, 1, 1), (0x3f9, 0, 1, -7), (0x3fa, 0, 1, 1),
  (0x3fd, 2, 1, -130), (0x400, 15, 1, 80), (0x410, 31, 1, 32), (0x460, 32, 2, 1), (0x48a, 52, 2, 1),
  (0x4c0, 0, 1, 15), (0x4c1, 12, 2, 1), (0x4d0, 94, 2, 1), (0x531, 37, 1, 48),
  (0x10a0, 37, 1, 7264), (0x10c7, 0, 1, 7264), (0x10cd, 0, 1, 7264), (0x13a0, 79, 1, 38864),
  (0x13f0, 5, 1, 8), (0x1c89, 0, 1, 1), (0x1c90, 42, 1, -3008), (0x1cbd, 2, 1, -3008),
  (0x1e00, 148, 2, 1), (0x1e9e, 0, 1, -7615), (0x1ea0, 94, 2, 1), (0x1f08, 7, 1, -8),
  (0x1f18, 5, 1, -8), (0x1f28, 7, 1, -8), (0x1f38, 7, 1, -8), (0x1f48, 5, 1, -8),
  (0x1f59, 6, 2, -8), (0x1f68, 7, 1, -8), (0x1f88, 7, 1, -8), (0x1f98, 7, 1, -8),
  (0x1fa8, 7, 1, -8), (0x1fb8, 1, 1, -8), (0x1fba, 1, 1, -74), (0x1fbc, 0, 1, -9),
  (0x1fc8, 3, 1, -86), (0x1fcc, 0, 1, -9), (0x1fd8, 1, 1, -8), (0x1fda, 1, 1, -100),
  (0x1fe8, 1, 1, -8), (0x1fea, 1, 1, -112), (0x1fec, 0, 1, -7), (0x1ff8, 1, 1, -128),
  (0x1ffa, 1, 1, -126), (0x1ffc, 0, 1, -9), (0x2126, 0, 1, -7517), (0x212a, 0, 1, -8383),
  (0x212b, 0, 1, -8262), (0x2132, 0, 1, 28), (0x2160, 15, 1, 16), (0x2183, 0, 1, 1),
  (0x24b6, 25, 1, 26), (0x2c00, 47, 1, 48), (0x2c60, 0, 1, 1), (0x2c62, 0, 1, -10743),
  (0x2c63, 0, 1, -3814), (0x2c64, 0, 1, -10727), (0x2c67, 4, 2, 1), (0x2c6d, 0, 1, -10780),
  (0x2c6e, 0, 1, -10749), (0x2c6f, 0, 1, -10783), (0x2c70, 0, 1, -10782), (0x2c72, 0, 1, 1),
  (0x2c75, 0, 1, 1), (0x2c7e, 1, 1, -10815), (0x2c80, 98, 2, 1), (0x2ceb, 2, 2, 1),
  (0x2cf2, 0, 1, 1), (0xa640, 44, 2, 1), (0xa680, 26, 2, 1), (0xa722, 12, 2, 1), (0xa732, 60, 2, 1),
  (0xa779, 2, 2, 1), (0xa77d, 0, 1, -35332), (0xa77e, 8, 2, 1), (0xa78b, 0, 1, 1),
  (0xa78d, 0, 1, -42280), (0xa790, 2, 2, 1), (0xa796, 18, 2, 1), (0xa7aa, 0, 1, -42308),
  (0xa7ab, 0, 1, -42319), (0xa7ac, 0, 1, -42315), (0xa7ad, 0, 1, -42305), (0xa7ae, 0, 1, -42308),
  (0xa7b0, 0, 1, -42258), (0xa7b1, 0, 1, -42282), (0xa7b2, 0, 1, -42261), (0xa7b3, 0, 1, 928),
  (0xa7b4, 14, 2, 1), (0xa7c4, 0, 1, -48), (0xa7c5, 0, 1, -42307), (0xa7c6, 0, 1, -35384),
  (0xa7c7, 2, 2, 1), (0xa7cb, 0, 1, -42343), (0xa7cc, 14, 2, 1), (0xa7dc, 0, 1, -42561),
  (0xa7f5, 0, 1, 1), (0xff21, 25, 1, 32), (0x10400, 39, 1, 40), (0x104b0, 35, 1, 40),
  (0x10570, 10, 1, 39), (0x1057c, 14, 1, 39), (0x1058c, 6, 1, 39), (0x10594, 1, 1, 39),
  (0x10c80, 50, 1, 64), (0x10d50, 21, 1, 32), (0x118a0, 31, 1, 32), (0x16e40, 31, 1, 32),
  (0x16ea0, 24, 1, 27), (0x1e900, 33, 1, 34)]

private def inStepped (ranges : Array (Nat × Nat × Nat)) (n : Nat) : Bool :=
  ranges.any fun (first, span, step) =>
    first ≤ n && n - first ≤ span && (n - first) % step == 0

private def shifted (ranges : Array (Nat × Nat × Nat × Int)) (c : Char) : Char :=
  let n := c.toNat
  let covers (r : Nat × Nat × Nat × Int) : Bool :=
    r.1 ≤ n && n - r.1 ≤ r.2.1 && (n - r.1) % r.2.2.1 == 0
  match ranges.find? covers with
  | some (_, _, _, shift) => Char.ofNat (n + shift).toNat
  | none => c

def isUpper (c : Char) : Bool := if c.toNat < 0x80 then c.isUpper else inStepped upperRanges c.toNat

def isLower (c : Char) : Bool := if c.toNat < 0x80 then c.isLower else inStepped lowerRanges c.toNat

def isLetter (c : Char) : Bool :=
  if c.toNat < 0x80 then c.isAlpha else inRuns letterRuns c.toNat

def isDigit (c : Char) : Bool := if c.toNat < 0x80 then c.isDigit else inRuns digitRuns c.toNat

def isPunctuation (c : Char) : Bool := inRuns punctuationRuns c.toNat

/-- Characters that can stand for themselves in quoted text, of the separators only the space. -/
def isPrintable (c : Char) : Bool :=
  let n := c.toNat
  if n < 0x7f then 0x20 ≤ n
  else inRuns printableRuns n

def toUpper (c : Char) : Char := if c.toNat < 0x80 then c.toUpper else shifted toUpperRanges c

def toLower (c : Char) : Char := if c.toNat < 0x80 then c.toLower else shifted toLowerRanges c

def lowered (s : String) : String := s.map toLower

end PduCompiler.Text
