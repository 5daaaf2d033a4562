import Mathlib.Algebra.Field.Rat
import Mathlib.Data.List.Basic

/-! The precomputed band-limited steps, in millionths. -/

namespace PluginSdk

/-- A table of the source, whose entries all have six decimals. -/
def ofMillionths (table : List Nat) : List ℚ := table.map fun n : Nat => (n : ℚ) / 1000000

@[simp] theorem length_ofMillionths (table : List Nat) :
    (ofMillionths table).length = table.length := List.length_map _

theorem getElem?_ofMillionths {table : List Nat} {i : Nat} {y : ℚ}
    (h : (ofMillionths table)[i]? = some y) :
    ∃ n, table[i]? = some n ∧ y = (n : ℚ) / 1000000 := by
  rw [ofMillionths, List.getElem?_map, Option.map_eq_some_iff] at h
  obtain ⟨n, hn, hy⟩ := h
  exact ⟨n, hn, hy.symm⟩

def minBlep_4_32_millionths : List Nat :=
  [343, 675, 991, 1290, 1569, 1826, 2059, 2270,
    2457, 2623, 2768, 2897, 3012, 3118, 3220, 3325,
    3441, 3576, 3741, 3945, 4202, 4526, 4932, 5436,
    6057, 6815, 7733, 8832, 10140, 11683, 13489, 15590,
    18018, 20806, 23991, 27609, 31698, 36296, 41445, 47184,
    53553, 60593, 68343, 76843, 86129, 96238, 107202, 119053,
    131819, 145521, 160182, 175815, 192430, 210033, 228621, 248187,
    268716, 290189, 312576, 335842, 359946, 384837, 410459, 436749,
    463635, 491041, 518885, 547077, 575524, 604129, 632790, 661402,
    689859, 718053, 745876, 773219, 799975, 826041, 851315, 875700,
    899104, 921440, 942630, 962600, 981286, 998633, 1014594, 1029131,
    1042218, 1053837, 1063980, 1072652, 1079866, 1085644, 1090019, 1093034,
    1094738, 1095190, 1094458, 1092613, 1089735, 1085908, 1081220, 1075762,
    1069630, 1062917, 1055721, 1048137, 1040259, 1032179, 1023987, 1015767,
    1007601, 999566, 991730, 984158, 976909, 970034, 963575, 957572,
    952053, 947041, 942553, 938597, 935177, 932288, 929923, 928066,
    926698, 925797, 925334, 925279, 925600, 926261, 927227, 928460,
    929922, 931576, 933385, 935314, 937328, 939395, 941484, 943568,
    945622, 947623, 949552, 951392, 953129, 954754, 956258, 957637,
    958889, 960015, 961017, 961900, 962672, 963342, 963919, 964416,
    964844, 965217, 965549, 965854, 966146, 966438, 966744, 967077,
    967450, 967872, 968355, 968908, 969537, 970251, 971054, 971950,
    972941, 974028, 975211, 976487, 977854, 979307, 980841, 982448,
    984121, 985851, 987628, 989443, 991284, 993140, 994999, 996849,
    998678, 1000475, 1002227, 1003924, 1005553, 1007105, 1008570, 1009938,
    1011202, 1012353, 1013386, 1014296, 1015077, 1015728, 1016247, 1016632,
    1016884, 1017006, 1016999, 1016869, 1016620, 1016259, 1015792, 1015227,
    1014574, 1013841, 1013037, 1012174, 1011263, 1010312, 1009335, 1008340,
    1007339, 1006342, 1005358, 1004398, 1003470, 1002581, 1001739, 1000951,
    1000222, 999557, 998960, 998432, 997977, 997595, 997286, 997049,
    996883, 996784, 996751, 996778, 996863, 996999, 997182, 997406,
    997666, 997955, 998269, 998601, 998945, 999296, 999650, 1000000,
    1000000]

def minBlep_4_32 : List ℚ := ofMillionths minBlep_4_32_millionths

def minBlep_16_16_millionths : List Nat :=
  [68, 125, 170, 203, 226, 240, 250, 262,
    285, 328, 406, 535, 736, 1032, 1454, 2035,
    2816, 3846, 5177, 6873, 9003, 11647, 14893, 18838,
    23586, 29252, 35957, 43828, 52997, 63600, 75774, 89653,
    105369, 123045, 142794, 164714, 188886, 215368, 244193, 275365,
    308856, 344601, 382499, 422409, 464149, 507495, 552185, 597914,
    644344, 691102, 737788, 783977, 829228, 873092, 915117, 954858,
    991887, 1025801, 1056230, 1082848, 1105379, 1123605, 1137376, 1146609,
    1151298, 1151514, 1147403, 1139191, 1127177, 1111728, 1093276, 1072305,
    1049348, 1024970, 999757, 974307, 949214, 925051, 902365, 881655,
    863369, 847886, 835512, 826468, 820890, 818825, 820226, 824960,
    832807, 843470, 856583, 871720, 888408, 906142, 924395, 942640,
    960357, 977053, 992272, 1005614, 1016736, 1025370, 1031326, 1034496,
    1034858, 1032473, 1027485, 1020113, 1010643, 999421, 986839, 973322,
    959315, 945269, 931627, 918811, 907206, 897149, 888925, 882749,
    878769, 877057, 877612, 880357, 885147, 891773, 899969, 909425,
    919796, 930714, 941801, 952683, 963000, 972421, 980651, 987443,
    992605, 996004, 997570, 997298, 995245, 991528, 986320, 979838,
    972340, 964113, 955460, 946694, 938123, 930040, 922715, 916383,
    911240, 907432, 905059, 904164, 904737, 906718, 909997, 914421,
    919801, 925919, 932534, 939397, 946255, 952862, 958988, 964427,
    969003, 972577, 975049, 976363, 976504, 975503, 973431, 970395,
    966535, 962017, 957025, 951757, 946414, 941193, 936283, 931854,
    928054, 925002, 922787, 921463, 921052, 921538, 922874, 924983,
    927761, 931083, 934808, 938783, 942851, 946858, 950657, 954113,
    957108, 959546, 961356, 962491, 962932, 962688, 961792, 960301,
    958293, 955862, 953116, 950170, 947142, 944150, 941307, 938714,
    936461, 934620, 933246, 932373, 932015, 932166, 932800, 933875,
    935330, 937097, 939094, 941237, 943436, 945605, 947662, 949532,
    951152, 952468, 953443, 954054, 954291, 954163, 953689, 952902,
    951847, 950576, 949148, 947625, 946070, 944547, 943112, 941818,
    940709, 939819, 939175, 938789, 938666, 938797, 939166, 939748,
    940508, 941410, 942411, 943466, 944532, 945567, 946530, 947389,
    948115, 948686, 949089, 949319, 949376, 949270, 949018, 948642,
    948169, 947629, 947058, 946489, 945959, 945500, 945147, 944927,
    944866, 944985, 945301, 945825, 946564, 947520, 948691, 950071,
    951651, 953418, 955360, 957459, 959701, 962066, 964539, 967101,
    969737, 972430, 975164, 977923, 980692, 983456, 986199, 988905,
    991557, 994138, 996629, 999011, 1001264, 1003368, 1005303, 1007048,
    1008584, 1009893, 1010958, 1011768, 1012311, 1012582, 1012580, 1012307,
    1011773, 1010992, 1009982, 1008768, 1007381, 1005853, 1004223, 1002531,
    1000818, 999128, 997503, 995984, 994609, 993414, 992427, 991672,
    991166, 990920, 990936, 991210, 991729, 992474, 993420, 994535,
    995783, 997123, 998514, 999912, 1001275, 1002560, 1003730, 1004750,
    1005590, 1006229, 1006649, 1006842, 1006805, 1006546, 1006076, 1005416,
    1004591, 1003631, 1002570, 1001447, 1000299, 999166, 998084, 997089,
    996212, 995481, 994917, 994535, 994344, 994346, 994538, 994907,
    995438, 996108, 996891, 997758, 998675, 999610, 1000531, 1001404,
    1002201, 1002896, 1003465, 1003893, 1004168, 1004283, 1004239, 1004040,
    1003699, 1003229, 1002653, 1001992, 1001274, 1000524, 999772, 999043,
    998365, 997760, 997248, 996845, 996564, 996411, 996388, 996493,
    996719, 997053, 997481, 997984, 998542, 999132, 999732, 1000319,
    1000872, 1001372, 1001800, 1002144, 1002393, 1002540, 1002584, 1002525,
    1002368, 1002123, 1001802, 1001418, 1000989, 1000531, 1000064, 999604,
    999169, 998776, 998436, 998162, 997963, 997842, 997802, 997842,
    997958, 998142, 998386, 998678, 999005, 999354, 999710, 1000059,
    1000388, 1000685, 1000940, 1001145, 1001292, 1001380, 1001405, 1001371,
    1001280, 1001138, 1000952, 1000732, 1000486, 1000227, 999964, 999708,
    999468, 999254, 999072, 998930, 998830, 998774, 998764, 998798,
    998873, 998983, 999124, 999288, 999467, 999655, 999843, 1000024,
    1000191, 1000337, 1000458, 1000551, 1000612, 1000641, 1000638, 1000605,
    1000543, 1000458, 1000354, 1000235, 1000107, 999976, 999847, 999725,
    999615, 999521, 999446, 999391, 999359, 999348, 999360, 999391,
    999440, 999505, 999580, 999664, 999751, 999838, 999923, 1000000,
    1000000]

def minBlep_16_16 : List ℚ := ofMillionths minBlep_16_16_millionths

end PluginSdk
