/-!
# Printable characters

Which characters stand for themselves in quoted text. Separators other than the space, control and
format characters, surrogates, private use and unassigned code points do not. The table follows the
general categories of Unicode 14.
-/

namespace AvroCodec.Text

/-- The code points above `~` that are not printable: where each range begins, and how many it has. -/
def unprintableRanges : List (Nat × Nat) :=
  [(0x7f, 34), (0xad, 1), (0x378, 2), (0x380, 4), (0x38b, 1), (0x38d, 1), (0x3a2, 1), (0x530, 1), (0x557, 2),
   (0x58b, 2), (0x590, 1), (0x5c8, 8), (0x5eb, 4), (0x5f5, 17), (0x61c, 1), (0x6dd, 1), (0x70e, 2), (0x74b, 2),
   (0x7b2, 14), (0x7fb, 2), (0x82e, 2), (0x83f, 1), (0x85c, 2), (0x85f, 1), (0x86b, 5), (0x88f, 9), (0x8e2, 1),
   (0x984, 1), (0x98d, 2), (0x991, 2), (0x9a9, 1), (0x9b1, 1), (0x9b3, 3), (0x9ba, 2), (0x9c5, 2), (0x9c9, 2),
   (0x9cf, 8), (0x9d8, 4), (0x9de, 1), (0x9e4, 2), (0x9ff, 2), (0xa04, 1), (0xa0b, 4), (0xa11, 2), (0xa29, 1),
   (0xa31, 1), (0xa34, 1), (0xa37, 1), (0xa3a, 2), (0xa3d, 1), (0xa43, 4), (0xa49, 2), (0xa4e, 3), (0xa52, 7),
   (0xa5d, 1), (0xa5f, 7), (0xa77, 10), (0xa84, 1), (0xa8e, 1), (0xa92, 1), (0xaa9, 1), (0xab1, 1), (0xab4, 1),
   (0xaba, 2), (0xac6, 1), (0xaca, 1), (0xace, 2), (0xad1, 15), (0xae4, 2), (0xaf2, 7), (0xb00, 1), (0xb04, 1),
   (0xb0d, 2), (0xb11, 2), (0xb29, 1), (0xb31, 1), (0xb34, 1), (0xb3a, 2), (0xb45, 2), (0xb49, 2), (0xb4e, 7),
   (0xb58, 4), (0xb5e, 1), (0xb64, 2), (0xb78, 10), (0xb84, 1), (0xb8b, 3), (0xb91, 1), (0xb96, 3), (0xb9b, 1),
   (0xb9d, 1), (0xba0, 3), (0xba5, 3), (0xbab, 3), (0xbba, 4), (0xbc3, 3), (0xbc9, 1), (0xbce, 2), (0xbd1, 6),
   (0xbd8, 14), (0xbfb, 5), (0xc0d, 1), (0xc11, 1), (0xc29, 1), (0xc3a, 2), (0xc45, 1), (0xc49, 1), (0xc4e, 7),
   (0xc57, 1), (0xc5b, 2), (0xc5e, 2), (0xc64, 2), (0xc70, 7), (0xc8d, 1), (0xc91, 1), (0xca9, 1), (0xcb4, 1),
   (0xcba, 2), (0xcc5, 1), (0xcc9, 1), (0xcce, 7), (0xcd7, 6), (0xcdf, 1), (0xce4, 2), (0xcf0, 1), (0xcf3, 13),
   (0xd0d, 1), (0xd11, 1), (0xd45, 1), (0xd49, 1), (0xd50, 4), (0xd64, 2), (0xd80, 1), (0xd84, 1), (0xd97, 3),
   (0xdb2, 1), (0xdbc, 1), (0xdbe, 2), (0xdc7, 3), (0xdcb, 4), (0xdd5, 1), (0xdd7, 1), (0xde0, 6), (0xdf0, 2),
   (0xdf5, 12), (0xe3b, 4), (0xe5c, 37), (0xe83, 1), (0xe85, 1), (0xe8b, 1), (0xea4, 1), (0xea6, 1), (0xebe, 2),
   (0xec5, 1), (0xec7, 1), (0xece, 2), (0xeda, 2), (0xee0, 32), (0xf48, 1), (0xf6d, 4), (0xf98, 1), (0xfbd, 1),
   (0xfcd, 1), (0xfdb, 37), (0x10c6, 1), (0x10c8, 5), (0x10ce, 2), (0x1249, 1), (0x124e, 2), (0x1257, 1),
   (0x1259, 1), (0x125e, 2), (0x1289, 1), (0x128e, 2), (0x12b1, 1), (0x12b6, 2), (0x12bf, 1), (0x12c1, 1),
   (0x12c6, 2), (0x12d7, 1), (0x1311, 1), (0x1316, 2), (0x135b, 2), (0x137d, 3), (0x139a, 6), (0x13f6, 2),
   (0x13fe, 2), (0x1680, 1), (0x169d, 3), (0x16f9, 7), (0x1716, 9), (0x1737, 9), (0x1754, 12), (0x176d, 1),
   (0x1771, 1), (0x1774, 12), (0x17de, 2), (0x17ea, 6), (0x17fa, 6), (0x180e, 1), (0x181a, 6), (0x1879, 7),
   (0x18ab, 5), (0x18f6, 10), (0x191f, 1), (0x192c, 4), (0x193c, 4), (0x1941, 3), (0x196e, 2), (0x1975, 11),
   (0x19ac, 4), (0x19ca, 6), (0x19db, 3), (0x1a1c, 2), (0x1a5f, 1), (0x1a7d, 2), (0x1a8a, 6), (0x1a9a, 6),
   (0x1aae, 2), (0x1acf, 49), (0x1b4d, 3), (0x1b7f, 1), (0x1bf4, 8), (0x1c38, 3), (0x1c4a, 3), (0x1c89, 7),
   (0x1cbb, 2), (0x1cc8, 8), (0x1cfb, 5), (0x1f16, 2), (0x1f1e, 2), (0x1f46, 2), (0x1f4e, 2), (0x1f58, 1),
   (0x1f5a, 1), (0x1f5c, 1), (0x1f5e, 1), (0x1f7e, 2), (0x1fb5, 1), (0x1fc5, 1), (0x1fd4, 2), (0x1fdc, 1),
   (0x1ff0, 2), (0x1ff5, 1), (0x1fff, 17), (0x2028, 8), (0x205f, 17), (0x2072, 2), (0x208f, 1), (0x209d, 3),
   (0x20c1, 15), (0x20f1, 15), (0x218c, 4), (0x2427, 25), (0x244b, 21), (0x2b74, 2), (0x2b96, 1), (0x2cf4, 5),
   (0x2d26, 1), (0x2d28, 5), (0x2d2e, 2), (0x2d68, 7), (0x2d71, 14), (0x2d97, 9), (0x2da7, 1), (0x2daf, 1),
   (0x2db7, 1), (0x2dbf, 1), (0x2dc7, 1), (0x2dcf, 1), (0x2dd7, 1), (0x2ddf, 1), (0x2e5e, 34), (0x2e9a, 1),
   (0x2ef4, 12), (0x2fd6, 26), (0x2ffc, 5), (0x3040, 1), (0x3097, 2), (0x3100, 5), (0x3130, 1), (0x318f, 1),
   (0x31e4, 12), (0x321f, 1), (0xa48d, 3), (0xa4c7, 9), (0xa62c, 20), (0xa6f8, 8), (0xa7cb, 5), (0xa7d2, 1),
   (0xa7d4, 1), (0xa7da, 24), (0xa82d, 3), (0xa83a, 6), (0xa878, 8), (0xa8c6, 8), (0xa8da, 6), (0xa954, 11),
   (0xa97d, 3), (0xa9ce, 1), (0xa9da, 4), (0xa9ff, 1), (0xaa37, 9), (0xaa4e, 2), (0xaa5a, 2), (0xaac3, 24),
   (0xaaf7, 10), (0xab07, 2), (0xab0f, 2), (0xab17, 9), (0xab27, 1), (0xab2f, 1), (0xab6c, 4), (0xabee, 2),
   (0xabfa, 6), (0xd7a4, 12), (0xd7c7, 4), (0xd7fc, 8452), (0xfa6e, 2), (0xfada, 38), (0xfb07, 12), (0xfb18, 5),
   (0xfb37, 1), (0xfb3d, 1), (0xfb3f, 1), (0xfb42, 1), (0xfb45, 1), (0xfbc3, 16), (0xfd90, 2), (0xfdc8, 7),
   (0xfdd0, 32), (0xfe1a, 6), (0xfe53, 1), (0xfe67, 1), (0xfe6c, 4), (0xfe75, 1), (0xfefd, 4), (0xffbf, 3),
   (0xffc8, 2), (0xffd0, 2), (0xffd8, 2), (0xffdd, 3), (0xffe7, 1), (0xffef, 13), (0xfffe, 2), (0x1000c, 1),
   (0x10027, 1), (0x1003b, 1), (0x1003e, 1), (0x1004e, 2), (0x1005e, 34), (0x100fb, 5), (0x10103, 4), (0x10134, 3),
   (0x1018f, 1), (0x1019d, 3), (0x101a1, 47), (0x101fe, 130), (0x1029d, 3), (0x102d1, 15), (0x102fc, 4),
   (0x10324, 9), (0x1034b, 5), (0x1037b, 5), (0x1039e, 1), (0x103c4, 4), (0x103d6, 42), (0x1049e, 2), (0x104aa, 6),
   (0x104d4, 4), (0x104fc, 4), (0x10528, 8), (0x10564, 11), (0x1057b, 1), (0x1058b, 1), (0x10593, 1), (0x10596, 1),
   (0x105a2, 1), (0x105b2, 1), (0x105ba, 1), (0x105bd, 67), (0x10737, 9), (0x10756, 10), (0x10768, 24), (0x10786, 1),
   (0x107b1, 1), (0x107bb, 69), (0x10806, 2), (0x10809, 1), (0x10836, 1), (0x10839, 3), (0x1083d, 2), (0x10856, 1),
   (0x1089f, 8), (0x108b0, 48), (0x108f3, 1), (0x108f6, 5), (0x1091c, 3), (0x1093a, 5), (0x10940, 64), (0x109b8, 4),
   (0x109d0, 2), (0x10a04, 1), (0x10a07, 5), (0x10a14, 1), (0x10a18, 1), (0x10a36, 2), (0x10a3b, 4), (0x10a49, 7),
   (0x10a59, 7), (0x10aa0, 32), (0x10ae7, 4), (0x10af7, 9), (0x10b36, 3), (0x10b56, 2), (0x10b73, 5), (0x10b92, 7),
   (0x10b9d, 12), (0x10bb0, 80), (0x10c49, 55), (0x10cb3, 13), (0x10cf3, 7), (0x10d28, 8), (0x10d3a, 294),
   (0x10e7f, 1), (0x10eaa, 1), (0x10eae, 2), (0x10eb2, 78), (0x10f28, 8), (0x10f5a, 22), (0x10f8a, 38),
   (0x10fcc, 20), (0x10ff7, 9), (0x1104e, 4), (0x11076, 9), (0x110bd, 1), (0x110c3, 13), (0x110e9, 7), (0x110fa, 6),
   (0x11135, 1), (0x11148, 8), (0x11177, 9), (0x111e0, 1), (0x111f5, 11), (0x11212, 1), (0x1123f, 65), (0x11287, 1),
   (0x11289, 1), (0x1128e, 1), (0x1129e, 1), (0x112aa, 6), (0x112eb, 5), (0x112fa, 6), (0x11304, 1), (0x1130d, 2),
   (0x11311, 2), (0x11329, 1), (0x11331, 1), (0x11334, 1), (0x1133a, 1), (0x11345, 2), (0x11349, 2), (0x1134e, 2),
   (0x11351, 6), (0x11358, 5), (0x11364, 2), (0x1136d, 3), (0x11375, 139), (0x1145c, 1), (0x11462, 30), (0x114c8, 8),
   (0x114da, 166), (0x115b6, 2), (0x115de, 34), (0x11645, 11), (0x1165a, 6), (0x1166d, 19), (0x116ba, 6),
   (0x116ca, 54), (0x1171b, 2), (0x1172c, 4), (0x11747, 185), (0x1183c, 100), (0x118f3, 12), (0x11907, 2),
   (0x1190a, 2), (0x11914, 1), (0x11917, 1), (0x11936, 1), (0x11939, 2), (0x11947, 9), (0x1195a, 70), (0x119a8, 2),
   (0x119d8, 2), (0x119e5, 27), (0x11a48, 8), (0x11aa3, 13), (0x11af9, 263), (0x11c09, 1), (0x11c37, 1),
   (0x11c46, 10), (0x11c6d, 3), (0x11c90, 2), (0x11ca8, 1), (0x11cb7, 73), (0x11d07, 1), (0x11d0a, 1), (0x11d37, 3),
   (0x11d3b, 1), (0x11d3e, 1), (0x11d48, 8), (0x11d5a, 6), (0x11d66, 1), (0x11d69, 1), (0x11d8f, 1), (0x11d92, 1),
   (0x11d99, 7), (0x11daa, 310), (0x11ef9, 183), (0x11fb1, 15), (0x11ff2, 13), (0x1239a, 102), (0x1246f, 1),
   (0x12475, 11), (0x12544, 2636), (0x12ff3, 13), (0x1342f, 4049), (0x14647, 8633), (0x16a39, 7), (0x16a5f, 1),
   (0x16a6a, 4), (0x16abf, 1), (0x16aca, 6), (0x16aee, 2), (0x16af6, 10), (0x16b46, 10), (0x16b5a, 1), (0x16b62, 1),
   (0x16b78, 5), (0x16b90, 688), (0x16e9b, 101), (0x16f4b, 4), (0x16f88, 7), (0x16fa0, 64), (0x16fe5, 11),
   (0x16ff2, 14), (0x187f8, 8), (0x18cd6, 42), (0x18d09, 8935), (0x1aff4, 1), (0x1affc, 1), (0x1afff, 1),
   (0x1b123, 45), (0x1b153, 17), (0x1b168, 8), (0x1b2fc, 2308), (0x1bc6b, 5), (0x1bc7d, 3), (0x1bc89, 7),
   (0x1bc9a, 2), (0x1bca0, 4704), (0x1cf2e, 2), (0x1cf47, 9), (0x1cfc4, 60), (0x1d0f6, 10), (0x1d127, 2),
   (0x1d173, 8), (0x1d1eb, 21), (0x1d246, 154), (0x1d2f4, 12), (0x1d357, 9), (0x1d379, 135), (0x1d455, 1),
   (0x1d49d, 1), (0x1d4a0, 2), (0x1d4a3, 2), (0x1d4a7, 2), (0x1d4ad, 1), (0x1d4ba, 1), (0x1d4bc, 1), (0x1d4c4, 1),
   (0x1d506, 1), (0x1d50b, 2), (0x1d515, 1), (0x1d51d, 1), (0x1d53a, 1), (0x1d53f, 1), (0x1d545, 1), (0x1d547, 3),
   (0x1d551, 1), (0x1d6a6, 2), (0x1d7cc, 2), (0x1da8c, 15), (0x1daa0, 1), (0x1dab0, 1104), (0x1df1f, 225),
   (0x1e007, 1), (0x1e019, 2), (0x1e022, 1), (0x1e025, 1), (0x1e02b, 213), (0x1e12d, 3), (0x1e13e, 2), (0x1e14a, 4),
   (0x1e150, 320), (0x1e2af, 17), (0x1e2fa, 5), (0x1e300, 1248), (0x1e7e7, 1), (0x1e7ec, 1), (0x1e7ef, 1),
   (0x1e7ff, 1), (0x1e8c5, 2), (0x1e8d7, 41), (0x1e94c, 4), (0x1e95a, 4), (0x1e960, 785), (0x1ecb5, 76),
   (0x1ed3e, 194), (0x1ee04, 1), (0x1ee20, 1), (0x1ee23, 1), (0x1ee25, 2), (0x1ee28, 1), (0x1ee33, 1), (0x1ee38, 1),
   (0x1ee3a, 1), (0x1ee3c, 6), (0x1ee43, 4), (0x1ee48, 1), (0x1ee4a, 1), (0x1ee4c, 1), (0x1ee50, 1), (0x1ee53, 1),
   (0x1ee55, 2), (0x1ee58, 1), (0x1ee5a, 1), (0x1ee5c, 1), (0x1ee5e, 1), (0x1ee60, 1), (0x1ee63, 1), (0x1ee65, 2),
   (0x1ee6b, 1), (0x1ee73, 1), (0x1ee78, 1), (0x1ee7d, 1), (0x1ee7f, 1), (0x1ee8a, 1), (0x1ee9c, 5), (0x1eea4, 1),
   (0x1eeaa, 1), (0x1eebc, 52), (0x1eef2, 270), (0x1f02c, 4), (0x1f094, 12), (0x1f0af, 2), (0x1f0c0, 1),
   (0x1f0d0, 1), (0x1f0f6, 10), (0x1f1ae, 56), (0x1f203, 13), (0x1f23c, 4), (0x1f249, 7), (0x1f252, 14),
   (0x1f266, 154), (0x1f6d8, 5), (0x1f6ed, 3), (0x1f6fd, 3), (0x1f774, 12), (0x1f7d9, 7), (0x1f7ec, 4),
   (0x1f7f1, 15), (0x1f80c, 4), (0x1f848, 8), (0x1f85a, 6), (0x1f888, 8), (0x1f8ae, 2), (0x1f8b2, 78), (0x1fa54, 12),
   (0x1fa6e, 2), (0x1fa75, 3), (0x1fa7d, 3), (0x1fa87, 9), (0x1faad, 3), (0x1fabb, 5), (0x1fac6, 10), (0x1fada, 6),
   (0x1fae8, 8), (0x1faf7, 9), (0x1fb93, 1), (0x1fbcb, 37), (0x1fbfa, 1030), (0x2a6e0, 32), (0x2b739, 7),
   (0x2b81e, 2), (0x2cea2, 14), (0x2ebe1, 3103), (0x2fa1e, 1506), (0x3134b, 716213), (0xe01f0, 196112)]

def isPrintable (c : Char) : Bool :=
  if c.toNat < 0x7f then 0x20 ≤ c.toNat
  else !unprintableRanges.any fun r => r.1 ≤ c.toNat && c.toNat < r.1 + r.2

end AvroCodec.Text
